import HaloOS.Kernel.Ledger
import HaloOS.Fs.Calm

/-! Each of the process calls keeps the ledger of pages: one specification per function,
with the conditions under which no page gets lost. -/

namespace HaloOS

open Lib

variable {L : Layout} {v v' : Vm} {own own' : ℕ → Owner} {l l' : List ℕ} {k k' k'' : Kernel}
  {t f n : ℕ} {p : Fin NPROC} {K : ℕ → Prop} {α : Type}

@[simp] theorem setProc_vm (p : Fin NPROC) (g : Proc → Proc) : (k.setProc p g).vm = k.vm := rfl
@[simp] theorem setProc_procs (p : Fin NPROC) (g : Proc → Proc) :
    (k.setProc p g).procs = Function.update k.procs p (g (k.procs p)) := rfl
@[simp] theorem setFile_vm (f : Fin NFILE) (g : File → File) : (k.setFile f g).vm = k.vm := rfl
@[simp] theorem setFile_procs (f : Fin NFILE) (g : File → File) :
    (k.setFile f g).procs = k.procs := rfl

/-- The page books of a kernel that is between two calls. -/
abbrev Books (L : Layout) (k : Kernel) (own : ℕ → Owner) (l : List ℕ) : Prop :=
  Ledger L k.vm k.procs own l (fun _ => False)

/-- Nothing the books look at has changed. -/
structure Quiet (k k' : Kernel) : Prop where
  vm : k'.vm = k.vm
  state : ∀ p, (k'.procs p).state = .unused ↔ (k.procs p).state = .unused
  same : ∀ p, (k'.procs p).pagetable = (k.procs p).pagetable ∧
    (k'.procs p).trapframe = (k.procs p).trapframe ∧ (k'.procs p).sz = (k.procs p).sz

theorem Quiet.refl (k : Kernel) : Quiet k k := ⟨rfl, fun _ => Iff.rfl, fun _ => ⟨rfl, rfl, rfl⟩⟩

theorem Quiet.trans (first : Quiet k k') (second : Quiet k' k'') : Quiet k k'' where
  vm := second.vm.trans first.vm
  state := fun p => (second.state p).trans (first.state p)
  same := by
    intro p
    obtain ⟨table, frame, size⟩ := first.same p
    obtain ⟨table', frame', size'⟩ := second.same p
    exact ⟨table'.trans table, frame'.trans frame, size'.trans size⟩

theorem Quiet.live (quiet : Quiet k k') (live : (k.procs p).state ≠ .unused) :
    (k'.procs p).state ≠ .unused := (not_congr (quiet.state p)).mpr live

theorem quiet_of_procs (vm : k'.vm = k.vm) (procs : k'.procs = k.procs) : Quiet k k' :=
  ⟨vm, fun p => by rw [procs], fun p => by rw [procs]; exact ⟨rfl, rfl, rfl⟩⟩

theorem quiet_setProc {g : Proc → Proc}
    (state : (g (k.procs p)).state = .unused ↔ (k.procs p).state = .unused)
    (same : (g (k.procs p)).pagetable = (k.procs p).pagetable ∧
      (g (k.procs p)).trapframe = (k.procs p).trapframe ∧ (g (k.procs p)).sz = (k.procs p).sz) :
    Quiet k (k.setProc p g) := by
  refine ⟨rfl, fun q => ?_, fun q => ?_⟩
  · by_cases here : q = p
    · subst here
      simpa using state
    · simp [Function.update_of_ne here]
  · by_cases here : q = p
    · subst here
      simpa using same
    · simp [Function.update_of_ne here]

theorem Ledger.quiet (books : Books L k own l) (quiet : Quiet k k') : Books L k' own l := by
  unfold Books
  rw [quiet.vm]
  exact Ledger.procs_congr books quiet.state fun p _ => quiet.same p

/-- Work on memory changes nothing but memory. -/
theorem sat_mio {m : Mio α} {E : Stop → Prop} {Q : α → Vm → Prop} (spec : Sat m k.vm E Q) :
    Sat (mio m) k E fun a k' => Q a k'.vm ∧ k'.procs = k.procs :=
  Sat.zoom (spec.mono fun _ _ post => ⟨post, rfl⟩)

/-- Work on the file system does not concern the books. -/
theorem fio_quiet {m : Fio α} (calm : Stops Gentle m) (k : Kernel) :
    Sat (fio m) k Harmless fun _ k' => Quiet k k' := by
  refine ((calm.sat_zoom k).weaken fun _ gentle => gentle.1).mono ?_
  rintro _ _ ⟨fs, rfl⟩
  exact quiet_of_procs rfl rfl

section Files

variable (me : ℕ)

theorem fileclose_quiet (g : Option (Fin NFILE)) (k : Kernel) :
    Sat (fileclose me g) k Harmless fun _ k' => Quiet k k' := by
  cases g with
  | none => exact Sat.throw (by decide)
  | some g =>
    unfold fileclose
    refine Sat.bind (Sat.gets (Q := fun _ s => k = s) rfl) ?_
    rintro file _ rfl
    refine Sat.bind (Sat.stopIf (Q := fun _ s => k = s) (fun _ => by decide) fun _ => rfl) ?_
    rintro _ _ rfl
    refine Sat.ite (fun _ => Sat.update (quiet_of_procs rfl rfl)) fun _ => ?_
    refine Sat.bind (Sat.update (Q := fun _ s => Quiet k s) (quiet_of_procs rfl rfl)) ?_
    intro _ k₁ quiet
    refine Sat.ite (fun _ => ?_) fun _ => Sat.pure quiet
    split
    · exact (fio_quiet (iput_calm me _) k₁).mono fun _ _ next => quiet.trans next
    · exact Sat.throw (by decide)

theorem closeFiles_quiet (p : Fin NPROC) (count fd : ℕ) (k : Kernel) :
    Sat (closeFiles p count fd) k Harmless fun _ k' => Quiet k k' := by
  induction count generalizing fd k with
  | zero => exact Sat.pure (.refl k)
  | succ count ih =>
    unfold closeFiles
    refine Sat.bind (Sat.gets (Q := fun _ s => k = s) rfl) ?_
    rintro proc _ rfl
    dsimp only
    split
    · refine Sat.bind (fileclose_quiet _ _ k) fun _ k₁ quiet => ?_
      refine Sat.bind (Sat.update (Q := fun _ s => Quiet k s) ?_) ?_
      · exact quiet.trans (quiet_setProc Iff.rfl ⟨rfl, rfl, rfl⟩)
      · exact fun _ k₂ quiet => (ih _ k₂).mono fun _ _ next => quiet.trans next
    · refine Sat.bind (Sat.pure (Q := fun _ s => k = s) rfl) ?_
      rintro _ _ rfl
      exact ih _ k

theorem dupFiles_quiet (now np : Fin NPROC) (count i : ℕ) (k : Kernel) :
    Sat (dupFiles now np count i) k Harmless fun _ k' => Quiet k k' := by
  induction count generalizing i k with
  | zero => exact Sat.pure (.refl k)
  | succ count ih =>
    unfold dupFiles
    refine Sat.bind (Sat.gets (Q := fun _ s => k = s) rfl) ?_
    rintro proc _ rfl
    dsimp only
    split
    · refine Sat.bind (Q := fun _ s => Quiet k s) ?_ fun g k₁ quiet => ?_
      · unfold filedup
        refine Sat.bind (Sat.gets (Q := fun _ s => k = s) rfl) ?_
        rintro file _ rfl
        refine Sat.bind (Sat.stopIf (Q := fun _ s => k = s) (fun _ => by decide) fun _ => rfl) ?_
        rintro _ _ rfl
        exact Sat.bind (Sat.update (Q := fun _ s => Quiet k s) (quiet_of_procs rfl rfl))
          fun _ _ quiet => Sat.pure quiet
      · refine Sat.bind (Sat.update (Q := fun _ s => Quiet k s) ?_) ?_
        · exact quiet.trans (quiet_setProc Iff.rfl ⟨rfl, rfl, rfl⟩)
        · exact fun _ k₂ quiet => (ih _ k₂).mono fun _ _ next => quiet.trans next
    · refine Sat.bind (Sat.pure (Q := fun _ s => k = s) rfl) ?_
      rintro _ _ rfl
      exact ih _ k

end Files

/-- `exit` frees no memory. -/
theorem exit_quiet (live : (k.procs p).state ≠ .unused) (status : ℕ) :
    Sat (exit p status) k Harmless fun _ k' => Quiet k k' := by
  unfold exit
  refine Sat.bind (Sat.gets (Q := fun _ s => k = s) rfl) ?_
  rintro initp _ rfl
  refine Sat.bind (Sat.stopIf (Q := fun _ s => k = s) (fun _ => by decide) fun _ => rfl) ?_
  rintro _ _ rfl
  refine Sat.bind (closeFiles_quiet p _ _ k) fun _ k₁ quiet => ?_
  refine Sat.bind (Sat.gets (Q := fun _ s => k₁ = s) rfl) ?_
  rintro proc _ rfl
  split
  · exact Sat.throw (by decide)
  · refine Sat.bind (fio_quiet (iput_calm _ _) k₁) fun _ k₂ quiet₂ => ?_
    refine Sat.bind (Sat.update (Q := fun _ s => Quiet k s) ?_) fun _ k₃ quiet₃ => ?_
    · exact (quiet.trans quiet₂).trans (quiet_setProc Iff.rfl ⟨rfl, rfl, rfl⟩)
    refine Sat.bind (Sat.update (Q := fun _ s => Quiet k s) ?_) fun _ k₄ quiet₄ => ?_
    · refine quiet₃.trans ⟨rfl, fun q => ?_, fun q => ?_⟩ <;> dsimp only <;> split <;> simp
    refine Sat.bind (Sat.update (Q := fun _ s => Quiet k s) ?_) fun _ k₅ quiet₅ => Sat.pure quiet₅
    refine quiet₄.trans (quiet_setProc ?_ ⟨rfl, rfl, rfl⟩)
    simpa using quiet₄.live live

/-- What is known of the state of the process with number `q`. The kernel counts as number `NPROC`. -/
def Standing (P : ProcState → Prop) (k : Kernel) (q : ℕ) : Prop := ∀ p : Fin NPROC, (p : ℕ) = q → P (k.procs p).state

theorem standing_of {P : ProcState → Prop} {q : Fin NPROC} (holds : P (k.procs q).state) : Standing P k q := by
  intro p same
  rwa [Fin.ext same]

theorem standing_kernel (P : ProcState → Prop) (k : Kernel) : Standing P k NPROC :=
  fun p same => absurd same (Nat.ne_of_lt p.isLt)

theorem Standing.mono {P Q : ProcState → Prop} {q : ℕ} (standing : Standing P k q) (weaker : ∀ s, P s → Q s) :
    Standing Q k q := fun p same => weaker _ (standing p same)

/-- The record that `allocproc` fills in. -/
def Proc.seat (proc : Proc) (pid f t : ℕ) : Proc :=
  { proc with pid, state := .used, trapframe := PGSIZE * f, pagetable := PGSIZE * t }

/-- What `allocproc` leaves behind for slot `p`: a trapframe and an empty table that the
books list apart. -/
structure Allocated (L : Layout) (k : Kernel) (own : ℕ → Owner) (l : List ℕ) (k' : Kernel)
    (p : Fin NPROC) (t f : ℕ) (own' : ℕ → Owner) (l' : List ℕ) : Prop where
  unused : (k.procs p).state = .unused
  ledger : Ledger L k'.vm k.procs own' l' (fun n => n = t ∨ n = f)
  space : Space L k'.vm own' l' t (fun _ => False) (topLeaves L f)
  shape : Shape own' t 0
  root : own' t = .root p
  trap : own' f = .trapframe p
  procs : k'.procs = Function.update k.procs p ((k.procs p).seat k.nextPid f t)
  length : l.length = l'.length + 4
  sound : ∀ K, Sound K own → Sound K own'
  spares : SparesOthers p own k.vm own' k'.vm

theorem Allocated.apart (allocated : Allocated L k own l k' p t f own' l') (q : Fin NPROC)
    (live : (k.procs q).state ≠ .unused) : (k.procs q).pagetable ≠ PGSIZE * t := by
  intro same
  obtain ⟨s, g, table, -, root, -⟩ := allocated.ledger.holds q live
  obtain rfl := PGSIZE_inj (table.symm.trans same)
  have both := root.symm.trans allocated.root
  simp only [Owner.root.injEq] at both
  exact live (Fin.ext both ▸ allocated.unused)

theorem Allocated.away (allocated : Allocated L k own l k' p t f own' l') (q : Fin NPROC)
    (live : (k.procs q).state ≠ .unused) : (k.procs q).trapframe ≠ PGSIZE * f := by
  intro same
  obtain ⟨s, g, -, frame, -, trap, -⟩ := allocated.ledger.holds q live
  obtain rfl := PGSIZE_inj (frame.symm.trans same)
  have both := trap.symm.trans allocated.trap
  simp only [Owner.trapframe.injEq] at both
  exact live (Fin.ext both ▸ allocated.unused)

/-- `allocproc` takes four pages, or finds no slot. -/
theorem allocproc_spec (books : Books L k own l) :
    Sat (allocproc L) k Harmless fun r k' =>
      (r = none ∧ k' = k ∧ ∀ p, (k.procs p).state ≠ .unused) ∨
      ∃ p t f own' l', r = some p ∧ Allocated L k own l k' p t f own' l' := by
  unfold allocproc
  refine Sat.bind (Sat.gets (Q := fun a s => k = a ∧ k = s) ⟨rfl, rfl⟩) ?_
  rintro _ _ ⟨rfl, rfl⟩
  split
  · rename_i none
    refine Sat.pure (.inl ⟨rfl, rfl, fun p => ?_⟩)
    simpa using List.find?_eq_none.mp none p (List.mem_finRange p)
  · rename_i p found
    have unused : (k.procs p).state = .unused := by simpa using List.find?_some found
    refine Sat.bind (Sat.update (Q := fun _ s => s = k.setProc p
      ({ · with pid := k.nextPid, state := .used })) rfl) ?_
    rintro _ _ rfl
    refine Sat.bind (Sat.update (Q := fun _ s => s.vm = k.vm ∧ s.procs =
      Function.update k.procs p { k.procs p with pid := k.nextPid, state := .used }) ⟨rfl, rfl⟩) ?_
    rintro _ k₁ ⟨vm₁, procs₁⟩
    have run := books.trapframe_kalloc (E := Harmless) (p : ℕ)
    rw [← vm₁] at run
    refine Sat.bind (sat_mio run) ?_
    rintro r k₂ ⟨⟨rfl, -⟩ | ⟨f, rest, own₂, rfl, pos, rfl, free₂, own₂_eq, ledger₂, spares₂⟩, procs₂⟩
    · exact Sat.bind (Q := fun _ _ => False) (Sat.stopIf (fun _ => by decide) fun bad => bad rfl)
        fun _ _ bad => bad.elim
    refine Sat.bind (Sat.stopIf (Q := fun _ s => k₂ = s)
      (fun zero => by simp only [PGSIZE] at zero; omega) fun _ => rfl) ?_
    rintro _ _ rfl
    refine Sat.bind (Sat.update (Q := fun _ s => s = k₂.setProc p
      ({ · with trapframe := PGSIZE * f })) rfl) ?_
    rintro _ _ rfl
    have build := procPagetable_spec (L := L) ledger₂.pool (fun t free => ledger₂.bare free) p f
    refine Sat.bind (sat_mio (build.weaken fun _ gentle => gentle.1)) ?_
    rintro _ k₃ ⟨⟨t, own₃, l₃, rfl, free, root, space, settled, touches, shape, length⟩, procs₃⟩
    refine Sat.bind (Sat.update (Q := fun _ s => s = k₃.setProc p
      ({ · with pagetable := PGSIZE * t })) rfl) ?_
    rintro _ _ rfl
    have trap₂ : own₂ f = .trapframe p := by rw [own₂_eq, Function.update_self]
    have trap : own₃ f = .trapframe p :=
      (touches.keep (Rootlike.not_trapframe (.inl free) trap₂)).1.trans trap₂
    have apart : ∀ q, (k.procs q).state ≠ .unused → (k.procs q).pagetable ≠ PGSIZE * t := by
      intro q live same
      obtain ⟨s, g, table, -, root', -⟩ := ledger₂.holds q live
      obtain rfl := PGSIZE_inj (table.symm.trans same)
      simp [free] at root'
    have ledger₃ := ledger₂.within touches space.pool (.inl free) (.inr ⟨p, root⟩)
      (fun _ _ => ⟨p, root⟩) settled (.inl free) apart
    refine Sat.pure (.inr ⟨p, t, f, own₃, l₃, rfl, unused, ledger₃.relist ?_ ?_, space, shape, root,
      trap, ?_, ?_, ?_, ?_⟩)
    · rintro n q - ((bad | rfl) | rfl)
      · exact bad.elim
      · exact .inr rfl
      · exact .inl rfl
    · rintro n q - ((bad | rfl) | rfl)
      · exact bad.elim
      · exact .inr rfl
      · exact .inl rfl
    · simp only [setProc_procs, procs₃, procs₂, procs₁, Function.update_self, Function.update_idem]
      rfl
    · rw [List.length_cons]
      omega
    · intro K none
      refine touches.sound (.inl free) (.inr ⟨p, root⟩) fun n => ?_
      rw [own₂_eq]
      by_cases here : n = f
      · subst here
        have old := (none n).1
        rw [free₂] at old
        simpa using old
      · rw [Function.update_of_ne here]
        exact none n
    · intro q s other anchor
      have spares := spares₂ q s
      rw [vm₁] at spares
      exact spares.trans (touches.spares (p := p) (.inl free) other (spares.anchor anchor))

/-- A store into the trapframe of a process. -/
theorem Ledger.store_trapframe {q : ℕ} (off : ℕ) (books : Books L k own l) (trap : own f = .trapframe q)
    (small : off < 512) (x : ℕ) :
    Books L { k with vm := k.vm.store (PGSIZE * f + 8 * off) x } own l :=
  Ledger.scribble books (keeps_store k.vm small x) rfl (.inl ⟨q, trap⟩)

theorem keeps_copyTrapframe (v : Vm) (f src : ℕ) :
    Keeps v (copyTrapframe (PGSIZE * f) src v) (· ≠ f) := by
  intro w other
  have outside : ¬ (PGSIZE * f / 8 ≤ w ∧ w < PGSIZE * f / 8 + 36) := by
    simp only [PGSIZE]
    omega
  simp [copyTrapframe, outside]

/-- `userinit` with neither five nor six free pages spares the processes there are. -/
theorem userinit_spares (books : Books L k own l) (enough : l.length ≠ 5 ∧ l.length ≠ 6) :
    Sat (userinit L) k Harmless fun _ k' =>
      ∃ own' l', Books L k' own' l' ∧ (∀ K, Sound K own → Sound K own') ∧
        ∀ q s, Standing (· ≠ .unused) k q → Anchor own q s → Spares q s own k.vm own' k'.vm := by
  unfold userinit
  refine Sat.bind (allocproc_spec books) ?_
  rintro r k₁ (⟨rfl, -, -⟩ | ⟨p, t, f, own₁, l₁, rfl, allocated⟩)
  · exact Sat.bind (Sat.update (Q := fun _ _ => True) trivial) fun _ _ _ => Sat.throw (by decide)
  refine Sat.bind (Sat.update (Q := fun _ s => s.vm = k₁.vm ∧ s.procs = k₁.procs) ⟨rfl, rfl⟩) ?_
  rintro _ k₂ ⟨vm₂, procs₂⟩
  have record : k₂.procs p = (k.procs p).seat k.nextPid f t := by
    rw [procs₂, allocated.procs, Function.update_self]
  refine Sat.bind (Sat.gets (Q := fun a s => a = (k.procs p).seat k.nextPid f t ∧ k₂ = s)
    ⟨record, rfl⟩) ?_
  rintro _ _ ⟨rfl, rfl⟩
  have room : l₁ = [] ∨ 3 ≤ l₁.length := by
    have length := allocated.length
    rcases l₁ with _ | ⟨a, rest⟩
    · exact .inl rfl
    · right
      simp only [List.length_cons] at *
      omega
  have init := allocated.space.uvminit (fun n => allocated.ledger.settled n t)
    (topLeaves_topOnly L f) allocated.shape room initcode
  rw [← vm₂] at init
  refine Sat.bind (sat_mio init) ?_
  rintro _ k₃ ⟨⟨own₃, l₃, space₃, settled₃, within₃⟩, procs₃⟩
  have ledger₃ := Ledger.work (fun n => n = f) (by rw [vm₂]; exact allocated.ledger)
    (by rw [vm₂]; exact allocated.space.tree) allocated.apart space₃ settled₃ within₃
  have root₃ : own₃ t = .root p := within₃.root.trans allocated.root
  have trap₃ : own₃ f = .trapframe p :=
    (within₃.touches.keep (Rootlike.not_trapframe (.inr ⟨p, allocated.root⟩) allocated.trap)).1.trans
      allocated.trap
  have lost₃ : ∀ K, Sound K own → Sound K own₃ := fun K none =>
    within₃.touches.sound (.inr ⟨p, allocated.root⟩) (.inr ⟨p, root₃⟩) (allocated.sound K none)
  have distinct : ∀ {q : ℕ}, Standing (· ≠ .unused) k q → q ≠ p := fun used same => used p same.symm allocated.unused
  have spares₃ : ∀ q s, Standing (· ≠ .unused) k q → Anchor own q s → Spares q s own k.vm own₃ k₃.vm := by
    intro q s used anchor
    have first := allocated.spares q s (distinct used) anchor
    rw [← vm₂] at first
    exact first.trans (within₃.touches.spares (.inr allocated.root) (distinct used) (first.anchor anchor))
  refine Sat.bind (Sat.update (Q := fun _ s => Books L s own₃ l₃ ∧ (s.procs p).state ≠ .unused ∧
    s.vm = k₃.vm) ?_) fun _ k₄ books₄ => ?_
  · have adopted := ledger₃.adopt (p := p)
      { (k.procs p).seat k.nextPid f t with sz := PGSIZE } allocated.unused ?_ rfl rfl
      root₃ trap₃ (by simp [Proc.seat])
    · have same : (k₃.setProc p ({ · with sz := PGSIZE })).procs = Function.update k.procs p
          { (k.procs p).seat k.nextPid f t with sz := PGSIZE } := by
        rw [setProc_procs, procs₃, record, procs₂, allocated.procs, Function.update_idem]
      refine ⟨?_, by rw [same, Function.update_self]; simp [Proc.seat], rfl⟩
      unfold Books
      rw [same]
      exact adopted
    · refine ⟨t, f, rfl, rfl, root₃, trap₃, space₃.tree, ?_, by simp [PGSIZE]⟩
      rw [show pages PGSIZE = 1 by decide]
      exact space₃.maps
  obtain ⟨books₄, live₄, vm₄⟩ := books₄
  refine Sat.bind (Q := fun _ s => Books L s own₃ l₃ ∧ (s.procs p).state ≠ .unused ∧
      s.vm = k₄.vm.store (PGSIZE * f + EPC) 0)
    (Sat.zoom (Sat.update ⟨books₄.store_trapframe 3 trap₃ (by omega) 0, live₄, rfl⟩)) ?_
  rintro _ k₅ ⟨books₅, live₅, vm₅⟩
  refine Sat.bind (Q := fun _ s => Books L s own₃ l₃ ∧ (s.procs p).state ≠ .unused ∧
      s.vm = k₅.vm.store (PGSIZE * f + SP) PGSIZE)
    (Sat.zoom (Sat.update ⟨books₅.store_trapframe 6 trap₃ (by omega) PGSIZE, live₅, rfl⟩)) ?_
  rintro _ k₆ ⟨books₆, live₆, vm₆⟩
  refine Sat.bind (fio_quiet rooti_calm k₆) fun _ k₇ quiet₇ => ?_
  refine Sat.bind (Sat.update (Q := fun _ s => Quiet k₆ s) ?_) fun _ k₈ quiet₈ => ?_
  · exact quiet₇.trans (quiet_setProc Iff.rfl ⟨rfl, rfl, rfl⟩)
  refine Sat.bind (Sat.update (Q := fun _ s => Quiet k₆ s) ?_) fun _ k₉ quiet₉ => ?_
  · refine quiet₈.trans (quiet_setProc ?_ ⟨rfl, rfl, rfl⟩)
    simpa using quiet₈.live live₆
  refine Sat.pure ⟨own₃, l₃, books₆.quiet quiet₉, lost₃, fun q s used anchor => ?_⟩
  have watched : Watched p (Spares q s own k.vm) := watched_spares (distinct used) anchor
  rw [quiet₉.vm, vm₆, vm₅, vm₄]
  exact watched.poke trap₃ (keeps_store _ (by decide : 6 < 512) PGSIZE)
    (watched.poke trap₃ (keeps_store _ (by decide : 3 < 512) 0) (spares₃ q s used anchor))

theorem userinit_spec (books : Books L k own l) (enough : l.length ≠ 5 ∧ l.length ≠ 6) :
    Sat (userinit L) k Harmless fun _ k' =>
      ∃ own' l', Books L k' own' l' ∧ (Sound K own → Sound K own') := by
  refine (userinit_spares books enough).mono ?_
  rintro _ k' ⟨own', l', books', sound, -⟩
  exact ⟨own', l', books', sound K⟩

/-- The record that `freeproc` leaves. -/
def Proc.cleared (proc : Proc) : Proc :=
  { proc with trapframe := 0, pid := 0, parent := none, killed := false, state := .unused }

/-- `freeproc` of a process that the books list apart: its trapframe is free again, the
rest of its memory is out of reach. -/
theorem freeproc_spec {procs : Fin NPROC → Proc} {q : ℕ}
    (ledger : Ledger L k.vm procs own l (fun n => n = t ∨ n = f))
    (apart : ∀ p, (procs p).state ≠ .unused → (procs p).pagetable ≠ PGSIZE * t)
    (away : ∀ p, (procs p).state ≠ .unused → (procs p).trapframe ≠ PGSIZE * f)
    (root : own t = .root q) (trap : own f = .trapframe q)
    (frame : (k.procs p).trapframe = PGSIZE * f) {E : Stop → Prop} :
    Sat (freeproc L p) k E fun _ k' =>
      (∃ own', Ledger L k'.vm procs own' (f :: l) (fun _ => False) ∧
        ∀ r u, r ≠ q → Anchor own r u → Spares r u own k.vm own' k'.vm) ∧
        k'.procs = Function.update k.procs p (k.procs p).cleared := by
  have above := (ledger.pool.managed f (by simp [trap])).pos
  unfold freeproc
  refine Sat.bind (Sat.gets (Q := fun a s => k.procs p = a ∧ k = s) ⟨rfl, rfl⟩) ?_
  rintro _ _ ⟨rfl, rfl⟩
  rw [frame]
  refine Sat.bind (Sat.onlyIf (fun _ => sat_mio (ledger.discard apart root trap away))
    fun zero => absurd zero (by simp only [PGSIZE]; omega)) ?_
  rintro _ k₁ ⟨freed, procs₁⟩
  refine Sat.update ⟨freed, ?_⟩
  rw [setProc_procs, procs₁]
  rfl

/-- Pages that `fork` of a process with `n` user pages takes. -/
def forkPages (n : ℕ) : ℕ := 4 + copyPages 0 n

/-- `fork` spares every process, its parent too. Pages are lost only when memory runs out while the child
is being copied. -/
theorem fork_spares (books : Books L k own l) {now : Fin NPROC}
    (live : (k.procs now).state ≠ .unused) :
    Sat (fork L now) k Harmless fun _ k' =>
      ∃ own' l', Books L k' own' l' ∧
        ((∀ p, (k.procs p).state ≠ .unused) ∨ l.length < 4 ∨
            forkPages (pages (k.procs now).sz) ≤ l.length →
          ∀ K, Sound K own → Sound K own') ∧
        ∀ q s, Standing (· ≠ .unused) k q → Anchor own q s → Spares q s own k.vm own' k'.vm := by
  unfold fork
  refine Sat.bind (allocproc_spec books) ?_
  rintro r k₁ (⟨rfl, rfl, -⟩ | ⟨np, t, f, own₁, l₁, rfl, allocated⟩)
  · exact Sat.pure ⟨own, l, books, fun _ _ none => none, fun _ _ _ _ => .refl⟩
  have differ : now ≠ np := by
    rintro rfl
    exact live allocated.unused
  refine Sat.bind (Sat.gets (Q := fun a s => a = k.procs now ∧ k₁ = s)
    ⟨by rw [allocated.procs, Function.update_of_ne differ], rfl⟩) ?_
  rintro _ _ ⟨rfl, rfl⟩
  refine Sat.bind (Sat.gets (Q := fun a s => a = (k.procs np).seat k.nextPid f t ∧ k₁ = s)
    ⟨by rw [allocated.procs, Function.update_self], rfl⟩) ?_
  rintro _ _ ⟨rfl, rfl⟩
  obtain ⟨s, g, table, frame, rootNow, trapNow, tree, maps, whole⟩ := allocated.ledger.holds now live
  have other : s ≠ t := by
    rintro rfl
    exact allocated.apart now live table
  have copy := allocated.space.uvmcopy (E := Harmless) (k.procs now).sz
    (fun n => allocated.ledger.settled n t)
    (topLeaves_topOnly L f) ⟨tree, _, maps⟩ other
  rw [table]
  refine Sat.bind (sat_mio copy) ?_
  rintro copied k₂ ⟨⟨own₂, l₂, settled₂, within₂, result⟩, procs₂⟩
  have root₂ : own₂ t = .root np := within₂.root.trans allocated.root
  have trap₂ : own₂ f = .trapframe np :=
    (within₂.touches.keep (Rootlike.not_trapframe (.inr ⟨np, allocated.root⟩) allocated.trap)).1.trans
      allocated.trap
  have record : k₂.procs np = (k.procs np).seat k.nextPid f t := by
    rw [procs₂, allocated.procs, Function.update_self]
  have distinct : ∀ {q : ℕ}, Standing (· ≠ .unused) k q → q ≠ np := fun used same => used np same.symm allocated.unused
  have spares₂ : ∀ q s, Standing (· ≠ .unused) k q → Anchor own q s → Spares q s own k.vm own₂ k₂.vm := by
    intro q s used anchor
    have first := allocated.spares q s (distinct used) anchor
    exact first.trans (within₂.touches.spares (.inr allocated.root) (distinct used) (first.anchor anchor))
  rcases result with ⟨rfl, space₂⟩ | ⟨rfl, space₂, short⟩
  · have ledger₂ := Ledger.work (fun n => n = f) allocated.ledger allocated.space.tree
      allocated.apart space₂ settled₂ within₂
    have lost₂ : ∀ K, Sound K own → Sound K own₂ := fun K none =>
      within₂.touches.sound (.inr ⟨np, allocated.root⟩) (.inr ⟨np, root₂⟩) (allocated.sound K none)
    rw [if_neg (by simp)]
    refine Sat.bind (Sat.update (Q := fun _ s => Books L s own₂ l₂ ∧ (s.procs np).state ≠ .unused ∧
      s.vm = k₂.vm) ?_) ?_
    · have adopted := ledger₂.adopt (p := np)
        { (k.procs np).seat k.nextPid f t with sz := (k.procs now).sz } allocated.unused
        ⟨t, f, rfl, rfl, root₂, trap₂, space₂.tree, space₂.maps, whole⟩ rfl rfl root₂ trap₂
        (by simp [Proc.seat])
      have same : (k₂.setProc np ({ · with sz := (k.procs now).sz })).procs =
          Function.update k.procs np
            { (k.procs np).seat k.nextPid f t with sz := (k.procs now).sz } := by
        rw [setProc_procs, record, procs₂, allocated.procs, Function.update_idem]
      refine ⟨?_, by rw [same, Function.update_self]; simp [Proc.seat], rfl⟩
      unfold Books
      rw [same]
      exact adopted
    rintro _ k₃ ⟨books₃, live₃, vm₃⟩
    refine Sat.bind (Q := fun _ s => Books L s own₂ l₂ ∧ (s.procs np).state ≠ .unused ∧
        Keeps k₃.vm s.vm (· ≠ f))
      (Sat.zoom (Sat.update ⟨Ledger.scribble books₃ (keeps_copyTrapframe k₃.vm f _) rfl
        (.inl ⟨np, trap₂⟩), live₃, keeps_copyTrapframe k₃.vm f _⟩)) ?_
    rintro _ k₄ ⟨books₄, live₄, keeps₄⟩
    refine Sat.bind (Q := fun _ s => Books L s own₂ l₂ ∧ (s.procs np).state ≠ .unused ∧
        Keeps k₄.vm s.vm (· ≠ f))
      (Sat.zoom (Sat.update ⟨books₄.store_trapframe 14 trap₂ (by omega) 0, live₄,
        keeps_store _ (by decide : 14 < 512) 0⟩)) ?_
    rintro _ k₅ ⟨books₅, live₅, keeps₅⟩
    refine Sat.bind (dupFiles_quiet now np _ _ k₅) fun _ k₆ quiet₆ => ?_
    split
    · exact Sat.throw (by decide)
    · refine Sat.bind (fio_quiet (.bind (.update _) fun _ => .pure _) k₆) fun _ k₇ quiet₇ => ?_
      refine Sat.bind (Sat.update (Q := fun _ s => Quiet k₅ s) ?_) fun _ k₈ quiet₈ => ?_
      · exact (quiet₆.trans quiet₇).trans (quiet_setProc Iff.rfl ⟨rfl, rfl, rfl⟩)
      refine Sat.bind (Sat.update (Q := fun _ s => Quiet k₅ s) ?_) fun _ k₉ quiet₉ => ?_
      · exact quiet₈.trans (quiet_setProc Iff.rfl ⟨rfl, rfl, rfl⟩)
      refine Sat.bind (Sat.update (Q := fun _ s => Quiet k₅ s) ?_) fun _ k₁₀ quiet => ?_
      · refine quiet₉.trans (quiet_setProc ?_ ⟨rfl, rfl, rfl⟩)
        simpa using quiet₉.live live₅
      refine Sat.pure ⟨own₂, l₂, books₅.quiet quiet, fun _ => lost₂, fun q s used anchor => ?_⟩
      have watched : Watched np (Spares q s own k.vm) := watched_spares (distinct used) anchor
      have spares := spares₂ q s used anchor
      rw [← vm₃] at spares
      rw [quiet.vm]
      exact watched.poke trap₂ keeps₅ (watched.poke trap₂ keeps₄ spares)
  · have ledger₂ := Ledger.work (fun n => n = f) allocated.ledger allocated.space.tree
      allocated.apart space₂ settled₂ within₂
    rw [if_pos rfl]
    refine Sat.bind (freeproc_spec ledger₂ allocated.apart allocated.away root₂ trap₂
      (by rw [record]; rfl)) ?_
    rintro _ k₃ ⟨⟨own₃, ledger₃, spares₃⟩, procs₃⟩
    have same : k₃.procs = Function.update k.procs np (k₂.procs np).cleared := by
      rw [procs₃, procs₂, allocated.procs, Function.update_idem]
    refine Sat.pure ⟨own₃, f :: l₂, ?_, ?_, fun q s used anchor => ?_⟩
    · refine ledger₃.procs_congr (fun q => ?_) fun q used => ?_
      · rw [same]
        by_cases here : q = np
        · subst here
          simp [Proc.cleared, allocated.unused]
        · rw [Function.update_of_ne here]
      · have here : q ≠ np := by
          rintro rfl
          exact used allocated.unused
        rw [same, Function.update_of_ne here]
        exact ⟨rfl, rfl, rfl⟩
    · intro enough
      have less := short allocated.shape
      have length := allocated.length
      exfalso
      rcases enough with full | few | many
      · exact full np allocated.unused
      · omega
      · unfold forkPages at many
        omega
    · have spares := spares₂ q s used anchor
      exact spares.trans (spares₃ q s (distinct used) (spares.anchor anchor))

theorem fork_spec (books : Books L k own l) {now : Fin NPROC}
    (live : (k.procs now).state ≠ .unused) :
    Sat (fork L now) k Harmless fun _ k' =>
      ∃ own' l', Books L k' own' l' ∧
        ((∀ p, (k.procs p).state ≠ .unused) ∨ l.length < 4 ∨
            forkPages (pages (k.procs now).sz) ≤ l.length →
          Sound K own → Sound K own') := by
  refine (fork_spares books live).mono ?_
  rintro _ k' ⟨own', l', books', sound, -⟩
  exact ⟨own', l', books', fun enough => sound enough K⟩

/-- Writing into the user memory of a process keeps the books. -/
theorem Ledger.inside {procs : Fin NPROC → Proc} (ledger : Ledger L v procs own l (fun _ => False))
    (live : (procs p).state ≠ .unused) (table : (procs p).pagetable = PGSIZE * t)
    (root : own t = .root p) (trap : own f = .trapframe p)
    (frame : (procs p).trapframe = PGSIZE * f) (whole : (procs p).sz % PGSIZE = 0)
    (space : Space L v' own l t (· < pages (procs p).sz) (topLeaves L f))
    (within : Within t own v own v') : Ledger L v' procs own l (fun _ => False) := by
  refine { ledger with pool := space.pool, holds := ?_ }
  intro q used
  by_cases same : q = p
  · subst same
    exact ⟨t, f, table, frame, root, trap, space.tree, space.maps, whole⟩
  · refine (ledger.holds q used).within within.touches (.inr ⟨p, root⟩) (.inr ⟨p, root⟩) ?_
    intro clash
    obtain ⟨s, g, table', -, root', -⟩ := ledger.holds q used
    obtain rfl := PGSIZE_inj (table'.symm.trans clash)
    have both := root'.symm.trans root
    simp only [Owner.root.injEq] at both
    exact same (Fin.ext both)

/-- `copyoutpg` into the memory of a live process. -/
theorem Ledger.copyoutpg {W : (ℕ → Owner) → Vm → Prop} (books : Books L k own l)
    (watched : Watched p W) (kept : W own k.vm) (live : (k.procs p).state ≠ .unused) (addr : ℕ) (bytes : List Byte) :
    Sat (mio (copyoutpg (k.procs p).pagetable addr bytes)) k Harmless fun _ k' =>
      Books L k' own l ∧ k'.procs = k.procs ∧ W own k'.vm := by
  obtain ⟨t, f, table, frame, root, trap, tree, maps, whole⟩ := books.holds p live
  have space : Space L k.vm own l t (· < pages (k.procs p).sz) (topLeaves L f) :=
    ⟨books.pool, tree, maps⟩
  rw [table]
  refine (sat_mio (space.copyoutpg.weaken fun _ gentle => gentle.1)).mono ?_
  rintro _ k₁ ⟨⟨space₁, within₁⟩, procs₁⟩
  refine ⟨?_, procs₁, watched.touches within₁.touches (.inr root) (.inr root) kept⟩
  unfold Books
  rw [procs₁]
  exact Ledger.inside books live table root trap frame whole space₁ within₁

/-- `freeproc` of a process that the books hold. -/
theorem Ledger.reap {np : Fin NPROC} {E : Stop → Prop} (books : Books L k own l) (alive : (k.procs np).state ≠ .unused) :
    Sat (freeproc L np) k E fun _ k' => (∃ own' l', Books L k' own' l' ∧
      SparesOthers np own k.vm own' k'.vm) ∧
        k'.procs = Function.update k.procs np (k.procs np).cleared := by
  obtain ⟨t, f, table, frame, root, trap, -⟩ := books.holds np alive
  have apart := Ledger.disown (p := np) (k.procs np).cleared books table frame rfl
  refine (freeproc_spec apart ?_ ?_ root trap frame).mono ?_
  · intro q used clash
    obtain ⟨s, g, table', -, root', -⟩ := apart.holds q used
    obtain rfl := PGSIZE_inj (table'.symm.trans clash)
    have both := root'.symm.trans root
    simp only [Owner.root.injEq] at both
    obtain rfl : q = np := Fin.ext both
    simp [Proc.cleared] at used
  · intro q used clash
    obtain ⟨s, g, -, frame', -, trap', -⟩ := apart.holds q used
    obtain rfl := PGSIZE_inj (frame'.symm.trans clash)
    have both := trap'.symm.trans trap
    simp only [Owner.trapframe.injEq] at both
    obtain rfl : q = np := Fin.ext both
    simp [Proc.cleared] at used
  · rintro _ k' ⟨⟨own', ledger, spares⟩, procs⟩
    refine ⟨⟨own', f :: l, ?_, spares⟩, procs⟩
    unfold Books
    rw [procs]
    exact ledger

/-- `wait` spares the other processes that are not dead. Taking a dead child away loses its memory. -/
theorem wait_spares (books : Books L k own l) (live : (k.procs p).state ≠ .unused) (addr : ℕ) :
    Sat (wait L p addr) k Harmless fun _ k' =>
      ∃ own' l', Books L k' own' l' ∧
        ((∀ q, (k.procs q).parent = some p → (k.procs q).state ≠ .zombie) →
          ∀ K, Sound K own → Sound K own') ∧
        ∀ q s : ℕ, q ≠ p → Standing (· ≠ .zombie) k q → Anchor own q s → Spares q s own k.vm own' k'.vm := by
  unfold wait
  refine Sat.bind (Sat.gets (Q := fun a s => k = a ∧ k = s) ⟨rfl, rfl⟩) ?_
  rintro _ _ ⟨rfl, rfl⟩
  dsimp only
  split
  · rename_i np found
    have zombie : (k.procs np).state = .zombie := by simpa using List.find?_some found
    have child : (k.procs np).parent = some p := by
      have member := List.mem_of_find?_eq_some found
      simpa using (List.mem_filter.mp member).2
    refine Sat.bind (Q := fun _ k' => Books L k' own l ∧ k'.procs = k.procs ∧
        SparesOthers p own k.vm own k'.vm)
      (Sat.onlyIf (fun _ => ?_) fun _ => ⟨books, rfl, fun _ _ _ _ => .refl⟩) ?_
    · refine Sat.bind (books.copyoutpg (watched_others p own k.vm) (fun _ _ _ _ => .refl) live addr _) ?_
      rintro copied k₁ post
      exact Sat.stopIf (fun _ => by decide) fun _ => post
    rintro _ k₁ ⟨books₁, procs₁, spares₁⟩
    have alive : (k₁.procs np).state ≠ .unused := by rw [procs₁, zombie]; simp
    refine Sat.bind (books₁.reap alive) ?_
    rintro _ k₂ ⟨⟨own₂, l₂, books₂, spares₂⟩, -⟩
    refine Sat.pure ⟨own₂, l₂, books₂, fun none => absurd zombie (none np child), fun q s other alive' anchor => ?_⟩
    exact (spares₁ q s other anchor).trans (spares₂ q s (fun same => alive' np same.symm zombie) anchor)
  · refine Sat.ite (fun _ => Sat.pure ⟨own, l, books, fun _ _ none => none, fun _ _ _ _ _ => .refl⟩)
      fun _ => Sat.throw (by decide)

theorem wait_spec (books : Books L k own l) (live : (k.procs p).state ≠ .unused) (addr : ℕ) :
    Sat (wait L p addr) k Harmless fun _ k' =>
      ∃ own' l', Books L k' own' l' ∧
        ((∀ q, (k.procs q).parent = some p → (k.procs q).state ≠ .zombie) →
          Sound K own → Sound K own') := by
  refine (wait_spares books live addr).mono ?_
  rintro _ k' ⟨own', l', books', sound, -⟩
  exact ⟨own', l', books', fun none => sound none K⟩

end HaloOS
