import HaloOS.Kernel.Runs
import HaloOS.Lib.Tally
import Mathlib.Data.Fintype.Prod

/-! Open files over whole runs: the `ref` of an entry of the file table is the number of
descriptors that name it, whatever is opened, duplicated, inherited and closed. -/

namespace HaloOS

open Lib

variable {L : Layout} {k k' : Kernel} {p np now : Fin NPROC} {f : Fin NFILE} {fd : ℕ}
  {owed : Fin NFILE → ℤ}

/-- The descriptors of all processes. -/
def Kernel.slots (k : Kernel) : Fin NPROC × Fin OPENFILE → Option (Fin NFILE) :=
  fun slot => (k.procs slot.1).openfs slot.2

/-- A process that is free or has exited. -/
def ProcState.Dead (s : ProcState) : Prop := s = .unused ∨ s = .zombie

/-- The reference counts are right up to what a call in progress owes. -/
structure Counted (k : Kernel) (owed : Fin NFILE → ℤ) : Prop where
  ref : ∀ f, (k.files f).ref = tally k.slots f + owed f
  idle : ∀ f, (k.files f).ref = 0 → (k.files f).type = .none
  closed : ∀ p, (k.procs p).state.Dead → ∀ fd, (k.procs p).openfs fd = none
  beyond : ∀ p fd, OPENFILE ≤ fd → (k.procs p).openfs fd = none

/-- Nothing about open files changes. -/
structure Untouched (k k' : Kernel) : Prop where
  files : k'.files = k.files
  openfs : ∀ p, (k'.procs p).openfs = (k.procs p).openfs
  state : ∀ p, (k'.procs p).state.Dead → (k.procs p).state.Dead

theorem Untouched.refl (k : Kernel) : Untouched k k := ⟨rfl, fun _ => rfl, fun _ => id⟩

theorem Untouched.trans {k'' : Kernel} (first : Untouched k k') (second : Untouched k' k'') :
    Untouched k k'' :=
  ⟨second.files.trans first.files, fun p => (second.openfs p).trans (first.openfs p),
    fun p => first.state p ∘ second.state p⟩

theorem Untouched.slots (same : Untouched k k') : k'.slots = k.slots := by
  funext slot
  simp only [Kernel.slots, same.openfs]

theorem Counted.congr (counted : Counted k owed) (same : Untouched k k') : Counted k' owed where
  ref := by rw [same.files, same.slots]; exact counted.ref
  idle := by rw [same.files]; exact counted.idle
  closed := fun p dead fd => by rw [same.openfs]; exact counted.closed p (same.state p dead) fd
  beyond := fun p fd far => by rw [same.openfs]; exact counted.beyond p fd far

theorem Counted.owe {owed' : Fin NFILE → ℤ} (counted : Counted k owed)
    (same : ∀ f, owed f = owed' f) : Counted k owed' := by
  obtain rfl : owed = owed' := funext same
  exact counted

theorem untouched_of_eq (files : k'.files = k.files) (procs : k'.procs = k.procs) :
    Untouched k k' :=
  ⟨files, fun _ => by rw [procs], fun _ => by rw [procs]; exact id⟩

theorem untouched_setProc {g : Proc → Proc} (openfs : (g (k.procs p)).openfs = (k.procs p).openfs)
    (state : (g (k.procs p)).state.Dead → (k.procs p).state.Dead) :
    Untouched k (k.setProc p g) := by
  refine ⟨rfl, fun q => ?_, fun q => ?_⟩
  · by_cases here : q = p
    · subst here
      simpa using openfs
    · simp [Function.update_of_ne here]
  · by_cases here : q = p
    · subst here
      simpa using state
    · simp [Function.update_of_ne here]

theorem fio_untouched {α : Type} (m : Fio α) (k : Kernel) :
    Sat (fio m) k anyStop fun _ k' => Untouched k k' := by
  refine (fio_apart m k).mono ?_
  rintro _ _ ⟨fs, rfl⟩
  exact untouched_of_eq rfl rfl

theorem mio_untouched {α : Type} (m : Mio α) (k : Kernel) :
    Sat (mio m) k anyStop fun _ k' => k'.procs = k.procs ∧ k'.files = k.files := by
  refine Sat.ofOk fun a k' returned => ?_
  obtain ⟨vm, -, rfl⟩ := zoom_ok.mp returned
  exact ⟨rfl, rfl⟩

section Descriptors

/-- Store `new` into a descriptor of a process. -/
def Proc.setFd (fd : ℕ) (new : Option (Fin NFILE)) (proc : Proc) : Proc :=
  { proc with openfs := Function.update proc.openfs fd new }

theorem slots_setFd (k : Kernel) (p : Fin NPROC) (small : fd < OPENFILE) (new : Option (Fin NFILE)) :
    (k.setProc p (Proc.setFd fd new)).slots = Function.update k.slots (p, ⟨fd, small⟩) new := by
  funext ⟨q, fd'⟩
  by_cases same : q = p
  · subst same
    by_cases at_ : fd' = ⟨fd, small⟩
    · subst at_
      simp [Kernel.slots, Proc.setFd]
    · have apart : (fd' : ℕ) ≠ fd := fun equal => at_ (Fin.ext equal)
      simp [Kernel.slots, Proc.setFd, at_, Function.update_of_ne apart]
  · simp [Kernel.slots, same]

/-- Writing a descriptor shifts what is owed. -/
theorem Counted.setFd (counted : Counted k owed) (small : fd < OPENFILE)
    (new : Option (Fin NFILE)) (alive : new = none ∨ ¬ (k.procs p).state.Dead) :
    Counted (k.setProc p (Proc.setFd fd new)) fun f =>
      owed f + (if (k.procs p).openfs fd = some f then 1 else 0) - if new = some f then 1 else 0 where
  ref := by
    intro f
    have shift := tally_update k.slots (p, ⟨fd, small⟩) new f
    have here : k.slots (p, ⟨fd, small⟩) = (k.procs p).openfs fd := rfl
    have old := counted.ref f
    rw [here] at shift
    rw [slots_setFd k p small new, shift]
    change (k.files f).ref = _
    omega
  idle := counted.idle
  closed := by
    intro q dead fd'
    by_cases same : q = p
    · subst same
      have gone : (k.procs q).state.Dead := by simpa [Proc.setFd] using dead
      have empty := counted.closed q gone
      obtain rfl : new = none := alive.resolve_right (not_not.mpr gone)
      by_cases at_ : fd' = fd
      · simp [Proc.setFd, at_]
      · simp [Proc.setFd, Function.update_of_ne at_, empty]
    · rw [setProc_procs, Function.update_of_ne same] at dead ⊢
      exact counted.closed q dead fd'
  beyond := by
    intro q fd' far
    by_cases same : q = p
    · subst same
      have apart : fd' ≠ fd := by omega
      simpa [Proc.setFd, Function.update_of_ne apart] using counted.beyond q fd' far
    · rw [setProc_procs, Function.update_of_ne same]
      exact counted.beyond q fd' far

/-- Changing the count of an entry shifts what is owed. -/
theorem Counted.setFile (counted : Counted k owed) (g : File → File)
    (idle : (g (k.files f)).ref = 0 → (g (k.files f)).type = .none) :
    Counted (k.setFile f g) (Function.update owed f
      (owed f + (g (k.files f)).ref - (k.files f).ref)) where
  ref := by
    intro f'
    have same : (k.setFile f g).slots = k.slots := rfl
    rw [same]
    by_cases here : f' = f
    · subst here
      rw [Function.update_self]
      simp only [Kernel.setFile, Function.update_self]
      rw [counted.ref f']
      ring
    · rw [Function.update_of_ne here]
      simp only [Kernel.setFile, Function.update_of_ne here]
      exact counted.ref f'
  idle := by
    intro f' zero
    by_cases here : f' = f
    · subst here
      simp only [Kernel.setFile, Function.update_self] at zero ⊢
      exact idle zero
    · simp only [Kernel.setFile, Function.update_of_ne here] at zero ⊢
      exact counted.idle f' zero
  closed := counted.closed
  beyond := counted.beyond

end Descriptors

section Calls

/-- An entry in use is owed one reference less after `fileclose`. -/
theorem Counted.fileclose (counted : Counted k owed) (me : ℕ) :
    Sat (fileclose me (some f)) k anyStop fun _ k' =>
      Counted k' (Function.update owed f (owed f - 1)) ∧ k'.procs = k.procs := by
  unfold HaloOS.fileclose
  refine Sat.bind (Sat.gets (Q := fun a s => k.files f = a ∧ k = s) ⟨rfl, rfl⟩) ?_
  rintro _ _ ⟨rfl, rfl⟩
  refine Sat.bind (Sat.stopIf (Q := fun _ s => k = s ∧ 1 ≤ (k.files f).ref) (fun _ => trivial)
    fun used => ⟨rfl, by omega⟩) ?_
  rintro _ _ ⟨rfl, used⟩
  refine Sat.ite (fun more => Sat.update ?_) fun last => ?_
  · refine ⟨?_, rfl⟩
    refine (counted.setFile ({ · with ref := (k.files f).ref - 1 }) fun zero => ?_).owe fun f' => ?_
    · change (k.files f).ref - 1 = 0 at zero
      omega
    · congr 1
      ring
  · have one : (k.files f).ref = 1 := by omega
    refine Sat.bind (Sat.update (Q := fun _ s => Counted s (Function.update owed f (owed f - 1)) ∧
      s.procs = k.procs) ?_) ?_
    · refine ⟨?_, rfl⟩
      refine (counted.setFile ({ · with ref := 0, type := .none }) fun _ => rfl).owe fun f' => ?_
      congr 1
      rw [one]
      ring
    · rintro _ k₁ ⟨counted₁, procs₁⟩
      refine Sat.ite (fun _ => ?_) fun _ => Sat.pure ⟨counted₁, procs₁⟩
      split
      · refine (fio_apart _ k₁).mono ?_
        rintro _ _ ⟨fs, rfl⟩
        exact ⟨counted₁.congr (untouched_of_eq rfl rfl), procs₁⟩
      · exact Sat.throw trivial

theorem Counted.filedup (counted : Counted k owed) :
    Sat (filedup f) k anyStop fun r k' =>
      r = f ∧ Counted k' (Function.update owed f (owed f + 1)) ∧ k'.procs = k.procs := by
  unfold HaloOS.filedup
  refine Sat.bind (Sat.gets (Q := fun a s => k.files f = a ∧ k = s) ⟨rfl, rfl⟩) ?_
  rintro _ _ ⟨rfl, rfl⟩
  refine Sat.bind (Sat.stopIf (Q := fun _ s => k = s ∧ 1 ≤ (k.files f).ref) (fun _ => trivial)
    fun used => ⟨rfl, by omega⟩) ?_
  rintro _ _ ⟨rfl, used⟩
  refine Sat.bind (Sat.update (Q := fun _ s => Counted s (Function.update owed f (owed f + 1)) ∧
    s.procs = k.procs) ?_) fun _ _ post => Sat.pure ⟨rfl, post⟩
  refine ⟨?_, rfl⟩
  refine (counted.setFile ({ · with ref := (k.files f).ref + 1 }) fun zero => ?_).owe fun f' => ?_
  · change (k.files f).ref + 1 = 0 at zero
    omega
  · congr 1
    ring

/-- `filealloc` finds an entry that no descriptor names. -/
theorem Counted.filealloc (counted : Counted k fun _ => 0) :
    Sat filealloc k anyStop fun r k' =>
      (r = none ∧ k' = k) ∨
      ∃ f, r = some f ∧ (∀ p fd, (k.procs p).openfs fd ≠ some f) ∧ (k'.files f).ref = 1 ∧
        Counted k' (Function.update (fun _ => 0) f 1) ∧ k'.procs = k.procs := by
  unfold HaloOS.filealloc
  refine Sat.bind (Sat.gets (Q := fun a s => k = a ∧ k = s) ⟨rfl, rfl⟩) ?_
  rintro _ _ ⟨rfl, rfl⟩
  split
  · rename_i f found
    have zero : (k.files f).ref = 0 := by simpa using List.find?_some found
    have unnamed : ∀ p fd, (k.procs p).openfs fd ≠ some f := by
      intro p fd named
      have none : tally k.slots f = 0 := by
        have ref := counted.ref f
        omega
      by_cases small : fd < OPENFILE
      · exact tally_eq_zero.mp none (p, ⟨fd, small⟩) named
      · rw [counted.beyond p fd (by omega)] at named
        simp at named
    refine Sat.bind (Sat.update (Q := fun _ s => (s.files f).ref = 1 ∧
      Counted s (Function.update (fun _ => 0) f 1) ∧ s.procs = k.procs) ?_)
      fun _ _ post => Sat.pure (.inr ⟨f, rfl, unnamed, post⟩)
    refine ⟨by simp [Kernel.setFile], ?_, rfl⟩
    refine (counted.setFile ({ · with ref := 1 }) fun one => by simp at one).owe fun f' => ?_
    rw [zero]
    rfl
  · exact Sat.pure (.inl ⟨rfl, rfl⟩)

/-- `fdalloc` names the entry once more. -/
theorem Counted.fdalloc (counted : Counted k owed) (alive : ¬ (k.procs p).state.Dead) :
    Sat (fdalloc p f) k anyStop fun r k' =>
      (r = none ∧ k' = k) ∨
      ∃ fd, r = some fd ∧ Counted k' (Function.update owed f (owed f - 1)) ∧ k'.files = k.files := by
  unfold HaloOS.fdalloc
  refine Sat.bind (Sat.gets (Q := fun a s => k.procs p = a ∧ k = s) ⟨rfl, rfl⟩) ?_
  rintro _ _ ⟨rfl, rfl⟩
  split
  · rename_i fd found
    have free : (k.procs p).openfs fd = none := by simpa using List.find?_some found
    have small : fd < OPENFILE := List.mem_range.mp (List.mem_of_find?_eq_some found)
    refine Sat.bind (Sat.update (Q := fun _ s => Counted s (Function.update owed f (owed f - 1)) ∧
      s.files = k.files) ⟨?_, rfl⟩) fun _ _ post => Sat.pure (.inr ⟨fd, rfl, post⟩)
    refine (counted.setFd small (some f) (.inr alive)).owe fun f' => ?_
    by_cases here : f' = f
    · subst here
      simp [free]
    · simp [Function.update_of_ne here, free, Ne.symm here]
  · exact Sat.pure (.inl ⟨rfl, rfl⟩)

theorem update_update_zero (f : Fin NFILE) (x : ℤ) :
    Function.update (Function.update (fun _ => (0 : ℤ)) f x) f 0 = fun _ => 0 := by
  rw [Function.update_idem]
  exact Function.update_eq_self f fun _ => (0 : ℤ)

theorem Counted.sysClose (counted : Counted k fun _ => 0) :
    Sat (sysClose p fd) k anyStop fun _ k' => Counted k' fun _ => 0 := by
  unfold HaloOS.sysClose argfd
  refine Sat.bind (Q := fun r s => r = (if fd < OPENFILE then (k.procs p).openfs fd else none) ∧
    k = s) (Sat.bind (Sat.gets (Q := fun a s => k.procs p = a ∧ k = s) ⟨rfl, rfl⟩) ?_) ?_
  · rintro _ _ ⟨rfl, rfl⟩
    exact Sat.pure ⟨rfl, rfl⟩
  rintro found _ ⟨value, rfl⟩
  cases found with
  | none => exact Sat.pure counted
  | some f =>
    have small : fd < OPENFILE := by
      by_contra far
      rw [if_neg far] at value
      simp at value
    rw [if_pos small] at value
    refine Sat.bind (Sat.update (Q := fun _ s => Counted s (Function.update (fun _ => 0) f 1)) ?_)
      fun _ k₁ counted₁ => ?_
    · refine (counted.setFd small none (.inl rfl)).owe fun f' => ?_
      by_cases here : f' = f
      · subst here
        simp [← value]
      · simp [Function.update_of_ne here, ← value, Ne.symm here]
    refine Sat.bind (Sat.gets (Q := fun _ s => k₁ = s) rfl) ?_
    rintro proc _ rfl
    refine Sat.bind (counted₁.fileclose _) ?_
    rintro _ k₂ ⟨counted₂, -⟩
    rw [Function.update_self, sub_self, update_update_zero] at counted₂
    exact Sat.pure counted₂

theorem Counted.sysDup (counted : Counted k fun _ => 0) (alive : ¬ (k.procs p).state.Dead) :
    Sat (sysDup p fd) k anyStop fun _ k' => Counted k' fun _ => 0 := by
  unfold HaloOS.sysDup
  refine Sat.bind (argfd_still p fd k) ?_
  rintro found _ rfl
  cases found with
  | none => exact Sat.pure counted
  | some f =>
    refine Sat.bind (counted.fdalloc alive) ?_
    rintro _ k₁ (⟨rfl, rfl⟩ | ⟨new, rfl, counted₁, -⟩)
    · exact Sat.pure counted
    · refine Sat.bind counted₁.filedup ?_
      rintro _ k₂ ⟨-, counted₂, -⟩
      rw [Function.update_self, zero_sub, neg_add_cancel, update_update_zero] at counted₂
      exact Sat.pure counted₂

/-- Filling in an entry in use. -/
theorem Counted.fill (counted : Counted k owed) (g : File → File) (used : (k.files f).ref = 1)
    (same : ∀ file, (g file).ref = file.ref) :
    Counted (k.setFile f g) owed ∧ ((k.setFile f g).files f).ref = 1 := by
  refine ⟨(counted.setFile g fun zero => ?_).owe fun f' => ?_, ?_⟩
  · rw [same, used] at zero
    simp at zero
  · rw [same]
    by_cases here : f' = f
    · subst here
      simp
    · rw [Function.update_of_ne here]
  · simp [Kernel.setFile, same, used]

theorem Counted.openInode (counted : Counted k fun _ => 0) (alive : ¬ (k.procs p).state.Dead)
    (ip : Fin INODES) (model : ℕ) :
    Sat (openInode p ip model) k anyStop fun _ k' => Counted k' fun _ => 0 := by
  unfold HaloOS.openInode
  refine Sat.bind (Sat.gets (Q := fun a s => k.procs p = a ∧ k = s) ⟨rfl, rfl⟩) ?_
  rintro _ _ ⟨rfl, rfl⟩
  refine Sat.bind (fio_apart _ k) ?_
  rintro _ _ ⟨fs, rfl⟩
  refine Sat.bind (fio_apart _ _) ?_
  rintro inode _ ⟨fs', rfl⟩
  have counted₁ : Counted { k with fs := fs' } fun _ => 0 :=
    counted.congr (untouched_of_eq rfl rfl)
  refine Sat.bind (Sat.stopIf (Q := fun _ s => { k with fs := fs' } = s) (fun _ => trivial)
    fun _ => rfl) ?_
  rintro _ _ rfl
  refine Sat.bind counted₁.filealloc ?_
  rintro _ k₂ (⟨rfl, -⟩ | ⟨f, rfl, -, used, counted₂, procs₂⟩)
  · exact Sat.bind (Q := fun _ _ => False) (Sat.throw trivial) fun _ _ bad => bad.elim
  refine Sat.bind (counted₂.fdalloc (p := p) (f := f) (by rwa [procs₂])) ?_
  rintro _ k₃ (⟨rfl, rfl⟩ | ⟨fd, rfl, counted₃, files₃⟩)
  · refine Sat.bind (counted₂.fileclose _) ?_
    rintro _ k₄ ⟨counted₄, -⟩
    rw [Function.update_self, sub_self, update_update_zero] at counted₄
    exact Sat.pure counted₄
  · rw [Function.update_self, sub_self, update_update_zero] at counted₃
    rw [← files₃] at used
    dsimp only
    refine Sat.ite (fun _ => ?_) fun _ => ?_ <;>
    · refine Sat.bind (Sat.update (Q := fun _ s => Counted s (fun _ => 0) ∧ (s.files f).ref = 1)
        (counted₃.fill _ used fun _ => rfl)) ?_
      rintro _ k₄ ⟨counted₄, used₄⟩
      refine Sat.bind (Sat.update (Q := fun _ s => Counted s (fun _ => 0) ∧ (s.files f).ref = 1)
        (counted₄.fill _ used₄ fun _ => rfl)) ?_
      rintro _ k₅ ⟨counted₅, -⟩
      refine Sat.bind (fio_untouched _ k₅) fun _ _ same => Sat.pure (counted₅.congr same)

theorem Counted.sysOpen (counted : Counted k fun _ => 0) (alive : ¬ (k.procs p).state.Dead)
    (path : List Byte) (model : ℕ) :
    Sat (sysOpen p path model) k anyStop fun _ k' => Counted k' fun _ => 0 := by
  unfold HaloOS.sysOpen
  refine Sat.bind (Sat.gets (Q := fun _ s => k = s) rfl) ?_
  rintro proc _ rfl
  have enter : ∀ fs ip, Sat (HaloOS.openInode p ip model) { k with fs } anyStop
      fun _ k' => Counted k' fun _ => 0 :=
    fun fs ip => Counted.openInode (k := { k with fs }) (counted.congr (untouched_of_eq rfl rfl))
      alive ip model
  refine Sat.ite (fun _ => ?_) fun _ => ?_
  · refine Sat.bind (fio_apart _ k) ?_
    rintro ip _ ⟨fs, rfl⟩
    exact enter fs ip
  · refine Sat.bind (fio_apart _ k) ?_
    rintro found _ ⟨fs, rfl⟩
    cases found with
    | none => exact Sat.pure (counted.congr (untouched_of_eq rfl rfl))
    | some ip => exact enter fs ip

end Calls

section Processes

theorem mio_same {α : Type} (m : Mio α) (k : Kernel) :
    Sat (mio m) k anyStop fun _ k' => Untouched k k' :=
  (mio_untouched m k).mono fun _ _ same => untouched_of_eq same.2 same.1

theorem Counted.setProc {g : Proc → Proc} (counted : Counted k owed)
    (openfs : (g (k.procs p)).openfs = (k.procs p).openfs)
    (closed : (g (k.procs p)).state.Dead → ∀ fd, (k.procs p).openfs fd = none) :
    Counted (k.setProc p g) owed where
  ref := by
    have same : (k.setProc p g).slots = k.slots := by
      funext ⟨q, fd⟩
      by_cases here : q = p
      · subst here
        simp [Kernel.slots, openfs]
      · simp [Kernel.slots, Function.update_of_ne here]
    rw [same]
    exact counted.ref
  idle := counted.idle
  closed := by
    intro q dead fd
    by_cases here : q = p
    · subst here
      simp only [setProc_procs, Function.update_self] at dead ⊢
      rw [openfs]
      exact closed dead fd
    · rw [setProc_procs, Function.update_of_ne here] at dead ⊢
      exact counted.closed q dead fd
  beyond := by
    intro q fd far
    by_cases here : q = p
    · subst here
      simpa [openfs] using counted.beyond q fd far
    · rw [setProc_procs, Function.update_of_ne here]
      exact counted.beyond q fd far

/-- A process is being built in slot `np` and has no open files yet. -/
structure Fresh (k : Kernel) (np : Fin NPROC) (s : Kernel) : Prop where
  counted : Counted s fun _ => 0
  others : ∀ q, q ≠ np → s.procs q = k.procs q
  used : (s.procs np).state = .used
  empty : ∀ fd, (s.procs np).openfs fd = none

theorem Fresh.congr {s s' : Kernel} (fresh : Fresh k np s) (files : s'.files = s.files)
    (procs : s'.procs = s.procs) : Fresh k np s' where
  counted := fresh.counted.congr (untouched_of_eq files procs)
  others := by rw [procs]; exact fresh.others
  used := by rw [procs]; exact fresh.used
  empty := by rw [procs]; exact fresh.empty

theorem Fresh.setProc {s : Kernel} (fresh : Fresh k np s) (g : Proc → Proc)
    (openfs : ∀ proc, (g proc).openfs = proc.openfs) (state : ∀ proc, (g proc).state = proc.state) :
    Fresh k np (s.setProc np g) where
  counted := fresh.counted.congr (untouched_setProc (openfs _) (by rw [state]; exact id))
  others := fun q other => by
    rw [setProc_procs, Function.update_of_ne other]
    exact fresh.others q other
  used := by simpa [state] using fresh.used
  empty := fun fd => by simpa [openfs] using fresh.empty fd

theorem Fresh.mio {α : Type} {s : Kernel} (fresh : Fresh k np s) (m : Mio α) :
    Sat (mio m) s anyStop fun _ s' => Fresh k np s' ∧ s'.procs = s.procs :=
  (mio_untouched m s).mono fun _ _ same => ⟨fresh.congr same.2 same.1, same.1⟩

/-- `allocproc` picks a slot without open files. -/
theorem Counted.allocproc (counted : Counted k fun _ => 0) :
    Sat (allocproc L) k anyStop fun r k' =>
      (r = none ∧ k' = k) ∨ ∃ np, r = some np ∧ (k.procs np).state = .unused ∧ Fresh k np k' := by
  unfold HaloOS.allocproc
  refine Sat.bind (Sat.gets (Q := fun a s => k = a ∧ k = s) ⟨rfl, rfl⟩) ?_
  rintro _ _ ⟨rfl, rfl⟩
  split
  · exact Sat.pure (.inl ⟨rfl, rfl⟩)
  · rename_i np found
    have unused : (k.procs np).state = .unused := by simpa using List.find?_some found
    have empty := counted.closed np (.inl unused)
    refine Sat.bind (Sat.update (Q := fun _ s => Fresh k np s) ?_) fun _ k₁ fresh₁ => ?_
    · refine ⟨counted.setProc rfl fun _ => empty, fun q other => ?_, by simp, fun fd => ?_⟩
      · rw [setProc_procs, Function.update_of_ne other]
      · simpa using empty fd
    refine Sat.bind (Sat.update (Q := fun _ s => Fresh k np s) (fresh₁.congr rfl rfl))
      fun _ k₂ fresh₂ => ?_
    refine Sat.bind (fresh₂.mio _) fun trapframe k₃ fresh₃ => ?_
    refine Sat.bind (Sat.stopIf (Q := fun _ s => Fresh k np s) (fun _ => trivial)
      fun _ => fresh₃.1) fun _ k₄ fresh₄ => ?_
    refine Sat.bind (Sat.update (Q := fun _ s => Fresh k np s)
      (fresh₄.setProc _ (fun _ => rfl) fun _ => rfl)) fun _ k₅ fresh₅ => ?_
    refine Sat.bind (fresh₅.mio _) fun pagetable k₆ fresh₆ => ?_
    refine Sat.bind (Sat.update (Q := fun _ s => Fresh k np s)
      (fresh₆.1.setProc _ (fun _ => rfl) fun _ => rfl)) fun _ k₇ fresh₇ => ?_
    exact Sat.pure (.inr ⟨np, rfl, unused, fresh₇⟩)

theorem Counted.userinit (counted : Counted k fun _ => 0) :
    Sat (userinit L) k anyStop fun _ k' => Counted k' fun _ => 0 := by
  unfold HaloOS.userinit
  refine Sat.bind counted.allocproc ?_
  rintro _ k₁ (⟨rfl, -⟩ | ⟨np, rfl, -, fresh₁⟩)
  · exact Sat.bind (Sat.update (Q := fun _ _ => True) trivial) fun _ _ _ => Sat.throw trivial
  refine Sat.bind (Sat.update (Q := fun _ s => Fresh k np s) (fresh₁.congr rfl rfl))
    fun _ k₂ fresh₂ => ?_
  refine Sat.bind (Sat.gets (Q := fun _ s => k₂ = s) rfl) ?_
  rintro proc _ rfl
  refine Sat.bind (fresh₂.mio _) fun _ k₃ fresh₃ => ?_
  refine Sat.bind (Sat.update (Q := fun _ s => Fresh k np s)
    (fresh₃.1.setProc _ (fun _ => rfl) fun _ => rfl)) fun _ k₄ fresh₄ => ?_
  refine Sat.bind (fresh₄.mio _) fun _ k₅ fresh₅ => ?_
  refine Sat.bind (fresh₅.1.mio _) fun _ k₆ fresh₆ => ?_
  refine Sat.bind (Q := fun _ s => Fresh k np s) ((fio_apart _ k₆).mono ?_) fun _ k₇ fresh₇ => ?_
  · rintro _ _ ⟨fs, rfl⟩
    exact fresh₆.1.congr rfl rfl
  refine Sat.bind (Sat.update (Q := fun _ s => Fresh k np s)
    (fresh₇.setProc _ (fun _ => rfl) fun _ => rfl)) fun _ k₈ fresh₈ => ?_
  refine Sat.bind (Sat.update (Q := fun _ s => Counted s fun _ => 0) ?_)
    fun _ _ counted₉ => Sat.pure counted₉
  exact fresh₈.counted.congr (untouched_setProc rfl fun dead => by simp [ProcState.Dead] at dead)

/-- The copying loop of `fork`: descriptors from `i` on are still empty in the child. -/
theorem Counted.dupFiles (counted : Counted k fun _ => 0) (differ : now ≠ np)
    (alive : ¬ (k.procs np).state.Dead) {count i : ℕ} (range : i + count = OPENFILE)
    (empty : ∀ fd, i ≤ fd → (k.procs np).openfs fd = none) :
    Sat (dupFiles now np count i) k anyStop fun _ k' =>
      Counted k' (fun _ => 0) ∧ ¬ (k'.procs np).state.Dead := by
  induction count generalizing i k with
  | zero => exact Sat.pure ⟨counted, alive⟩
  | succ count ih =>
    unfold HaloOS.dupFiles
    refine Sat.bind (Sat.gets (Q := fun a s => k.procs now = a ∧ k = s) ⟨rfl, rfl⟩) ?_
    rintro _ _ ⟨rfl, rfl⟩
    dsimp only
    split
    · rename_i f named
      refine Sat.bind counted.filedup ?_
      rintro _ k₁ ⟨rfl, counted₁, procs₁⟩
      have vacant : (k₁.procs np).openfs i = none := by rw [procs₁]; exact empty i (le_refl _)
      have alive₁ : ¬ (k₁.procs np).state.Dead := by rwa [procs₁]
      refine Sat.bind (Sat.update (Q := fun _ s => Counted s (fun _ => 0) ∧
        ¬ (s.procs np).state.Dead ∧ ∀ fd, i + 1 ≤ fd → (s.procs np).openfs fd = none) ?_) ?_
      · refine ⟨?_, by simpa using alive₁, fun fd far => ?_⟩
        · have small : i < OPENFILE := by omega
          refine (counted₁.setFd small (some _) (.inr alive₁)).owe fun f' => ?_
          rename_i file
          by_cases here : f' = file
          · subst here
            simp [vacant]
          · simp [Function.update_of_ne here, vacant, Ne.symm here]
        · have apart : fd ≠ i := by omega
          simpa [Function.update_of_ne apart, procs₁] using empty fd (by omega)
      · rintro _ k₂ ⟨counted₂, alive₂, empty₂⟩
        exact ih counted₂ alive₂ (by omega) empty₂
    · exact ih counted alive (by omega) fun fd far => empty fd (by omega)

theorem Counted.fork (counted : Counted k fun _ => 0) (alive : ¬ (k.procs now).state.Dead) :
    Sat (fork L now) k anyStop fun _ k' => Counted k' fun _ => 0 := by
  unfold HaloOS.fork
  refine Sat.bind counted.allocproc ?_
  rintro _ k₁ (⟨rfl, rfl⟩ | ⟨np, rfl, unused, fresh₁⟩)
  · exact Sat.pure counted
  have differ : now ≠ np := by
    rintro rfl
    exact alive (.inl unused)
  refine Sat.bind (Sat.gets (Q := fun _ s => k₁ = s) rfl) ?_
  rintro parent _ rfl
  refine Sat.bind (Sat.gets (Q := fun _ s => k₁ = s) rfl) ?_
  rintro child _ rfl
  refine Sat.bind (fresh₁.mio _) fun copied k₂ fresh₂ => ?_
  refine Sat.ite (fun _ => ?_) fun _ => ?_
  · unfold freeproc
    refine Sat.bind (Q := fun _ s => Counted s fun _ => 0) ?_ fun _ _ counted₃ => Sat.pure counted₃
    refine Sat.bind (Sat.gets (Q := fun _ s => k₂ = s) rfl) ?_
    rintro proc _ rfl
    refine Sat.bind (Q := fun _ s => Fresh k np s) (Sat.onlyIf (fun _ => (fresh₂.1.mio _).mono
      fun _ _ post => post.1) fun _ => fresh₂.1) fun _ k₃ fresh₃ => ?_
    exact Sat.update (fresh₃.counted.setProc rfl fun _ => fresh₃.empty)
  · refine Sat.bind (Sat.update (Q := fun _ s => Fresh k np s)
      (fresh₂.1.setProc _ (fun _ => rfl) fun _ => rfl)) fun _ k₃ fresh₃ => ?_
    refine Sat.bind (fresh₃.mio _) fun _ k₄ fresh₄ => ?_
    refine Sat.bind (fresh₄.1.mio _) fun _ k₅ fresh₅ => ?_
    refine Sat.bind (fresh₅.1.counted.dupFiles differ ?_ (Nat.zero_add _)
      fun fd _ => fresh₅.1.empty fd) ?_
    · rw [fresh₅.1.used]
      simp [ProcState.Dead]
    rintro _ k₆ ⟨counted₆, alive₆⟩
    split
    · exact Sat.throw trivial
    · refine Sat.bind (fio_untouched _ k₆) fun pwd k₇ same₇ => ?_
      have keep : ∀ {k : Kernel} {g : Proc → Proc}, Counted k (fun _ => 0) →
          (∀ proc, (g proc).openfs = proc.openfs) →
          (∀ proc, (g proc).state.Dead → proc.state.Dead) →
          Counted (k.setProc np g) fun _ => 0 :=
        fun counted openfs state => counted.congr (untouched_setProc (openfs _) (state _))
      refine Sat.bind (Sat.update (Q := fun _ s => Counted s fun _ => 0)
        (keep (counted₆.congr same₇) (fun _ => rfl) fun _ => id)) fun _ k₈ counted₈ => ?_
      refine Sat.bind (Sat.update (Q := fun _ s => Counted s fun _ => 0)
        (keep counted₈ (fun _ => rfl) fun _ => id)) fun _ k₉ counted₉ => ?_
      refine Sat.bind (Sat.update (Q := fun _ s => Counted s fun _ => 0)
        (keep counted₉ (fun _ => rfl) fun _ dead => ?_)) fun _ _ counted => Sat.pure counted
      simp [ProcState.Dead] at dead

/-- The closing loop of `exit`: descriptors below `fd` are empty already. -/
theorem Counted.closeFiles (counted : Counted k fun _ => 0) {count : ℕ}
    (range : fd + count = OPENFILE) (empty : ∀ fd' < fd, (k.procs p).openfs fd' = none) :
    Sat (closeFiles p count fd) k anyStop fun _ k' =>
      Counted k' (fun _ => 0) ∧ ∀ fd, (k'.procs p).openfs fd = none := by
  induction count generalizing fd k with
  | zero =>
    refine Sat.pure ⟨counted, fun fd' => ?_⟩
    by_cases small : fd' < fd
    · exact empty fd' small
    · exact counted.beyond p fd' (by omega)
  | succ count ih =>
    unfold HaloOS.closeFiles
    refine Sat.bind (Sat.gets (Q := fun a s => k.procs p = a ∧ k = s) ⟨rfl, rfl⟩) ?_
    rintro _ _ ⟨rfl, rfl⟩
    have small : fd < OPENFILE := by omega
    dsimp only
    split
    · rename_i f named
      refine Sat.bind (counted.fileclose _) ?_
      rintro _ k₁ ⟨counted₁, procs₁⟩
      refine Sat.bind (Sat.update (Q := fun _ s => Counted s (fun _ => 0) ∧
        ∀ fd' < fd + 1, (s.procs p).openfs fd' = none) ⟨?_, ?_⟩) ?_
      · refine (counted₁.setFd small none (.inl rfl)).owe fun f' => ?_
        rw [procs₁, named]
        by_cases here : f' = f
        · subst here
          simp
        · simp [Function.update_of_ne here, Ne.symm here]
      · intro fd' below
        by_cases at_ : fd' = fd
        · simp [at_]
        · simpa [Function.update_of_ne at_, procs₁] using empty fd' (by omega)
      · rintro _ k₂ ⟨counted₂, empty₂⟩
        exact ih counted₂ (by omega) empty₂
    · rename_i unnamed
      refine ih counted (by omega) fun fd' below => ?_
      by_cases at_ : fd' = fd
      · rw [at_, unnamed]
      · exact empty fd' (by omega)

theorem Counted.exit (counted : Counted k fun _ => 0) (status : ℕ) :
    Sat (exit p status) k anyStop fun _ k' => Counted k' fun _ => 0 := by
  unfold HaloOS.exit
  refine Sat.bind (Sat.gets (Q := fun _ s => k = s) rfl) ?_
  rintro initp _ rfl
  refine Sat.bind (Sat.stopIf (Q := fun _ s => k = s) (fun _ => trivial) fun _ => rfl) ?_
  rintro _ _ rfl
  refine Sat.bind (counted.closeFiles (Nat.zero_add _) fun fd' below => by omega) ?_
  rintro _ k₁ ⟨counted₁, empty₁⟩
  refine Sat.bind (Sat.gets (Q := fun _ s => k₁ = s) rfl) ?_
  rintro proc _ rfl
  split
  · exact Sat.throw trivial
  · refine Sat.bind (Q := fun _ s => Counted s (fun _ => 0) ∧ ∀ fd, (s.procs p).openfs fd = none)
      ((fio_apart _ k₁).mono ?_) ?_
    · rintro _ _ ⟨fs, rfl⟩
      exact ⟨counted₁.congr (untouched_of_eq rfl rfl), empty₁⟩
    rintro _ k₂ ⟨counted₂, empty₂⟩
    refine Sat.bind (Sat.update (Q := fun _ s => Counted s (fun _ => 0) ∧
      ∀ fd, (s.procs p).openfs fd = none) ⟨counted₂.congr (untouched_setProc rfl id), ?_⟩) ?_
    · simpa using empty₂
    rintro _ k₃ ⟨counted₃, empty₃⟩
    refine Sat.bind (Sat.update (Q := fun _ s => Counted s (fun _ => 0) ∧
      ∀ fd, (s.procs p).openfs fd = none) ⟨counted₃.congr ⟨rfl, fun q => ?_, fun q => ?_⟩, ?_⟩) ?_
    · dsimp only
      split <;> rfl
    · dsimp only
      split <;> exact id
    · intro fd
      dsimp only
      split <;> exact empty₃ fd
    rintro _ k₄ ⟨counted₄, empty₄⟩
    refine Sat.bind (Sat.update (Q := fun _ s => Counted s fun _ => 0) ?_)
      fun _ _ counted₅ => Sat.pure counted₅
    exact counted₄.setProc rfl fun _ => empty₄

theorem Counted.wait (counted : Counted k fun _ => 0) (addr : ℕ) :
    Sat (wait L p addr) k anyStop fun _ k' => Counted k' fun _ => 0 := by
  unfold HaloOS.wait
  refine Sat.bind (Sat.gets (Q := fun a s => k = a ∧ k = s) ⟨rfl, rfl⟩) ?_
  rintro _ _ ⟨rfl, rfl⟩
  dsimp only
  split
  · rename_i np found
    have zombie : (k.procs np).state = .zombie := by simpa using List.find?_some found
    have memory : ∀ {α : Type} (m : Mio α) (s : Kernel), (Counted s (fun _ => 0) ∧ s.procs = k.procs) →
        Sat (mio m) s anyStop fun _ s' => Counted s' (fun _ => 0) ∧ s'.procs = k.procs := by
      rintro α m s ⟨counted, procs⟩
      refine (mio_untouched m s).mono ?_
      rintro _ _ ⟨procs', files'⟩
      exact ⟨counted.congr (untouched_of_eq files' procs'), procs'.trans procs⟩
    refine Sat.bind (Q := fun _ s => Counted s (fun _ => 0) ∧ s.procs = k.procs)
      (Sat.onlyIf (fun _ => ?_) fun _ => ⟨counted, rfl⟩) fun _ k₁ post₁ => ?_
    · refine Sat.bind (memory _ k ⟨counted, rfl⟩) fun copied k₁ post₁ => ?_
      exact Sat.stopIf (fun _ => trivial) fun _ => post₁
    refine Sat.bind (Q := fun _ s => Counted s fun _ => 0) ?_ fun _ _ done => Sat.pure done
    unfold freeproc
    refine Sat.bind (Sat.gets (Q := fun _ s => k₁ = s) rfl) ?_
    rintro proc _ rfl
    refine Sat.bind (Q := fun _ s => Counted s (fun _ => 0) ∧ s.procs = k.procs)
      (Sat.onlyIf (fun _ => memory _ k₁ post₁) fun _ => post₁) ?_
    rintro _ k₂ ⟨counted₂, procs₂⟩
    refine Sat.update (counted₂.setProc rfl fun _ => ?_)
    rw [procs₂]
    exact counted.closed np (.inr zombie)
  · exact Sat.ite (fun _ => Sat.pure counted) fun _ => Sat.throw trivial

end Processes

section Exec

/-! ### `exec` has nothing to do with open files -/

theorem loadseg_untouched (me pagetable va : ℕ) (ip : Fin INODES) (off sz : ℕ) (k : Kernel) :
    Sat (loadseg me pagetable va ip off sz) k anyStop fun _ k' => Untouched k k' := by
  have loop : ∀ count i s, Untouched k s →
      Sat (loadsegLoop me pagetable va ip off sz count i) s anyStop fun _ k' => Untouched k k' := by
    intro count
    induction count with
    | zero => exact fun _ _ same => Sat.pure same
    | succ count ih =>
      intro i s same
      unfold loadsegLoop
      refine Sat.bind (mio_same _ s) fun pa s₁ same₁ => ?_
      refine Sat.bind (Sat.stopIf (Q := fun _ t => s₁ = t) (fun _ => trivial) fun _ => rfl) ?_
      rintro _ _ rfl
      refine Sat.bind (Q := fun _ t => Untouched k t) ((readi_keeps
        (fun t fs same => same.trans (untouched_of_eq rfl rfl)) ?_ (same.trans same₁)).weaken
          fun _ _ => trivial) ?_
      · intro tot bytes t _ same
        exact Sat.bind (Q := fun _ s => Untouched k s)
          (Sat.zoom (Sat.update (same.trans (untouched_of_eq rfl rfl)))) fun _ _ done => Sat.pure done
      · rintro ⟨r, bytes⟩ s₂ same₂
        dsimp only
        exact Sat.ite (fun _ => Sat.pure same₂) fun _ => ih _ s₂ same₂
  exact loop _ _ k (.refl k)

theorem loadLoop_untouched (me pagetable : ℕ) (ip : Fin INODES) (count off sz : ℕ) (k : Kernel) :
    Sat (loadLoop L me pagetable ip count off sz) k anyStop fun _ k' => Untouched k k' := by
  induction count generalizing off sz k with
  | zero => exact Sat.pure (.refl k)
  | succ count ih =>
    unfold loadLoop
    refine Sat.bind (fio_untouched _ k) ?_
    rintro ⟨r, ph⟩ k₁ same₁
    dsimp only
    have next : ∀ {off sz : ℕ} {s : Kernel}, Untouched k s →
        Sat (loadLoop L me pagetable ip count off sz) s anyStop fun _ k' => Untouched k k' :=
      fun same => (ih _ _ _).mono fun _ _ later => same.trans later
    refine Sat.bind (Sat.stopIf (Q := fun _ t => k₁ = t) (fun _ => trivial) fun _ => rfl) ?_
    rintro _ _ rfl
    refine Sat.ite (fun _ => next same₁) fun _ => ?_
    generalize field ph 16 8 = vaddr, field ph 32 8 = filesz, field ph 40 8 = memsz
    refine Sat.bind (Sat.stopIf (Q := fun _ t => k₁ = t) (fun _ => trivial) fun _ => rfl) ?_
    rintro _ _ rfl
    refine Sat.bind (Sat.stopIf (Q := fun _ t => k₁ = t) (fun _ => trivial) fun _ => rfl) ?_
    rintro _ _ rfl
    refine Sat.bind (mio_same _ k₁) fun sz1 k₂ same₂ => ?_
    refine Sat.bind (Sat.stopIf (Q := fun _ t => k₂ = t) (fun _ => trivial) fun _ => rfl) ?_
    rintro _ _ rfl
    refine Sat.bind (Sat.stopIf (Q := fun _ t => k₂ = t) (fun _ => trivial) fun _ => rfl) ?_
    rintro _ _ rfl
    refine Sat.bind (loadseg_untouched _ _ _ _ _ _ k₂) fun loaded k₃ same₃ => ?_
    refine Sat.bind (Sat.stopIf (Q := fun _ t => k₃ = t) (fun _ => trivial) fun _ => rfl) ?_
    rintro _ _ rfl
    exact next ((same₁.trans same₂).trans same₃)

theorem exec_untouched (p : Fin NPROC) (path : List Byte) (argv : List (List Byte)) (k : Kernel) :
    Sat (exec L p path argv) k anyStop fun _ k' => Untouched k k' := by
  unfold exec
  refine Sat.bind (Sat.gets (Q := fun _ s => k = s) rfl) ?_
  rintro proc _ rfl
  refine Sat.bind (fio_untouched _ k) fun app k₁ same₁ => ?_
  refine Sat.bind (fio_untouched _ k₁) fun _ k₂ same₂ => ?_
  cases app with
  | none => exact Sat.throw trivial
  | some app =>
    refine Sat.bind (mio_same _ k₂) fun pagetable k₃ same₃ => ?_
    refine Sat.bind (fio_untouched _ k₃) ?_
    rintro ⟨r, elf⟩ k₄ same₄
    dsimp only
    generalize field elf 0 4 = magic, field elf 24 8 = entry, field elf 32 8 = phoff,
      field elf 56 2 = phnum
    refine Sat.bind (Sat.stopIf (Q := fun _ t => k₄ = t) (fun _ => trivial) fun _ => rfl) ?_
    rintro _ _ rfl
    refine Sat.bind (Sat.stopIf (Q := fun _ t => k₄ = t) (fun _ => trivial) fun _ => rfl) ?_
    rintro _ _ rfl
    refine Sat.bind (loadLoop_untouched _ _ _ _ _ _ k₄) fun sz k₅ same₅ => ?_
    refine Sat.bind (fio_untouched _ k₅) fun _ k₆ same₆ => ?_
    refine Sat.bind (mio_same _ k₆) fun sz1 k₇ same₇ => ?_
    generalize sz1 - 2 * PGSIZE = guard, sz1 - PGSIZE = base
    have loaded := (((same₁.trans same₂).trans same₃).trans same₄).trans same₅
    refine Sat.bind (Sat.stopIf (Q := fun _ s => Untouched k s) (fun _ => trivial)
      fun _ => (loaded.trans same₆).trans same₇) fun _ k₈ same₈ => ?_
    refine Sat.bind (mio_same _ k₈) fun _ k₉ same₉ => ?_
    refine Sat.bind (mio_same _ k₉) fun sp k₁₀ same₁₀ => ?_
    refine Sat.bind (mio_same _ k₁₀) fun _ k₁₁ same₁₁ => ?_
    refine Sat.bind (Sat.update (Q := fun _ s => Untouched k₁₁ s) (untouched_setProc rfl id))
      fun _ k₁₂ same₁₂ => ?_
    refine Sat.bind (mio_same _ k₁₂) fun _ k₁₃ same₁₃ => ?_
    refine Sat.bind (mio_same _ k₁₃) fun _ k₁₄ same₁₄ => ?_
    refine Sat.bind (mio_same _ k₁₄) fun _ k₁₅ same₁₅ => Sat.pure ?_
    have mapped := ((same₈.trans same₉).trans same₁₀).trans same₁₁
    exact ((mapped.trans same₁₂).trans same₁₃).trans (same₁₄.trans same₁₅)

end Exec

section Runs

theorem Booted.counted {l : List ℕ} (boot : Booted L k l) : Counted k fun _ => 0 where
  ref := by
    intro f
    have unnamed : tally k.slots f = 0 := by
      refine tally_eq_zero.mpr fun slot => ?_
      simp [Kernel.slots, boot.procs]
    simp [unnamed, boot.files]
  idle := fun f _ => by rw [boot.files]
  closed := fun p _ fd => by rw [boot.procs]
  beyond := fun p fd _ => by rw [boot.procs]

theorem ProcState.Ready.not_dead {s : ProcState} (ready : s.Ready) : ¬ s.Dead := by
  rcases ready with rfl | rfl | rfl <;> simp [ProcState.Dead]

theorem Step.counted {e : Event} (step : Step L k e k') (counted : Counted k fun _ => 0) :
    Counted k' fun _ => 0 := by
  cases step with
  | userinit returns => exact counted.userinit.ok returns
  | @call k' r p c ready returns =>
    have alive := ready.not_dead
    cases c with
    | fork => exact (counted.fork alive).ok returns
    | exec path argv => exact counted.congr ((exec_untouched p path argv k).ok returns)
    | exit status => exact (counted.exit status).ok returns
    | wait addr => exact (counted.wait addr).ok returns
    | sysOpen path model => exact (counted.sysOpen alive path model).ok returns
    | sysDup fd => exact (counted.sysDup alive).ok returns
    | sysClose fd => exact counted.sysClose.ok returns
  | @sched p s ready next =>
    exact counted.congr (untouched_setProc rfl fun dead => absurd dead next.not_dead)

/-- In every state of a run the `ref` of an entry is the number of descriptors that name
it, an entry without references is empty, dead processes name no entry, and `filealloc`,
whatever the state of the file system, hands out no entry that is named. -/
theorem open_files_counted {k₀ : Kernel} {l₀ : List ℕ} {past : List Event}
    (boot : Booted L k₀ l₀) (run : Trace (Step L) k₀ past k) :
    (∀ f, (k.files f).ref = tally k.slots f) ∧
    (∀ f, (k.files f).ref = 0 → (k.files f).type = .none) ∧
    (∀ p, (k.procs p).state = .unused ∨ (k.procs p).state = .zombie →
      ∀ fd, (k.procs p).openfs fd = none) ∧
    ∀ fs f k', filealloc { k with fs } = .ok (some f, k') →
      ∀ p fd, (k.procs p).openfs fd ≠ some f := by
  have counted : Counted k fun _ => 0 :=
    run.invariant (fun _ k => Counted k fun _ => 0) boot.counted
      fun _ _ _ _ counted step => step.counted counted
  refine ⟨fun f => by rw [counted.ref f, Int.add_zero], counted.idle, counted.closed, ?_⟩
  intro fs f k' returns
  have moved : Counted { k with fs } fun _ => 0 := counted.congr (untouched_of_eq rfl rfl)
  obtain ⟨bad, -⟩ | ⟨f', same, unnamed, -⟩ := moved.filealloc.ok returns
  · simp at bad
  · obtain rfl : f = f' := by simpa using same
    exact unnamed

theorem open_files_counted_fork :
    ∃ k, Trace (Step smallLayout) (bootKernel 15)
        [.userinit, .call 0 (.sysOpen [slash] 0), .call 0 (.sysDup 0), .call 0 .fork] k ∧
      (k.files 0).ref = 4 ∧ tally k.slots 0 = 4 := by
  obtain ⟨_, k, returns, count⟩ := outcome_some
    (m := execAll smallLayout
      [.userinit, .call 0 (.sysOpen [slash] 0), .call 0 (.sysDup 0), .call 0 .fork])
    (k := bootKernel 15) (f := fun k => (k.files 0).ref) (b := 4) (by decide +kernel)
  have run := execAll_trace returns
  have equal := (open_files_counted (bootKernel_booted 15 (by decide)) run).1 0
  exact ⟨k, run, count, by omega⟩

end Runs

end HaloOS
