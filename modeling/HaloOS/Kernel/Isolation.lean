import HaloOS.Kernel.Arguments
import HaloOS.Kernel.Respect

/-! Runs of the machine: processes compute in user mode, trap and make system calls, in any order
and with any programs. A process that does nothing is not disturbed by what the others do. -/

namespace HaloOS

open Lib

variable {L : Layout} {own own' : ℕ → Owner} {l : List ℕ} {k k' k₀ : Kernel} {p q : Fin NPROC} {v v' : Vm}
  {s t f u : ℕ} {S : ℕ → Prop}

section Machine

/-- Where a store of user code to the virtual address `a` goes. Bits 63 to 39 repeat bit 38 and are
left out. -/
def storeAddress (v : Vm) (pagetable a : ℕ) : Option ℕ :=
  if 2 ^ 39 ≤ a then none
  else match sv39 v.mem (a / PGSIZE) 2 pagetable with
    | some (0, pte) =>
      if pte &&& PTE_U ≠ 0 ∧ pte &&& PTE_W ≠ 0 then some (PTE2PA pte + a % PGSIZE) else none
    | _ => none

/-- The trapframe gets 36 new words. -/
def saveFrame (trapframe : ℕ) (frame : ℕ → ℕ) (v : Vm) : Vm :=
  { v with mem := fun w =>
      if trapframe / 8 ≤ w ∧ w < trapframe / 8 + 36 then frame (w - trapframe / 8) else v.mem w }

/-- What happens next. -/
inductive Deed where
  | userinit
  /-- User code stores a byte. -/
  | store (p : Fin NPROC) (a : ℕ) (b : Byte)
  /-- Registers and program counter are saved on the way into the kernel, or the kernel's
  own fields on the way out. -/
  | trap (p : Fin NPROC) (frame : ℕ → ℕ)
  | ecall (p : Fin NPROC)
  | sched (p : Fin NPROC) (s : ProcState)
  /-- A key is pressed. -/
  | key (c : Byte)

/-- The process that acts. -/
def Deed.actor : Deed → Option (Fin NPROC)
  | .store p _ _ | .trap p _ | .ecall p => some p
  | _ => none

/-- Only a live process acts. -/
def acting (p : Fin NPROC) : Kio Proc := do
  let proc ← getProc p
  stopIf (¬ proc.state.Ready) .blocked
  pure proc

def Deed.run (L : Layout) : Deed → Kio Unit
  | .userinit => do
    let _ ← HaloOS.userinit L
    pure ()
  | .store p a b => do
    let proc ← acting p
    let v ← gets (·.vm)
    match storeAddress v proc.pagetable a with
    | some pa => mio (update (Vm.writeBytes pa [b]))
    | none => throw (.panic "user trap\n")
  | .trap p frame => do
    let proc ← acting p
    mio (update (saveFrame proc.trapframe frame))
  | .ecall p => do
    let _ ← acting p
    usertrapEcall L p
  | .sched p s => do
    let _ ← acting p
    stopIf (¬ s.Ready) .blocked
    setProc p ({ · with state := s })
  | .key c => update fun k => { k with cons := consoleintr c k.cons }

/-- `userinit` finds enough pages or too few, and no process calls `sbrk`, which does not keep `sz` in
step with the page table. -/
def Deed.Plain (k : Kernel) : Deed → Prop
  | .userinit => Room k .userinit
  | .ecall p => k.vm.load ((k.procs p).trapframe + A7) % UINT ≠ SYS_SBRK
  | _ => True

/-- A deed that is carried out. -/
def Does (L : Layout) (k : Kernel) (d : Deed) (k' : Kernel) : Prop := d.run L k = .ok ((), k') ∧ d.Plain k

end Machine

section Steps

theorem sat_acting {β : Type} {next : Proc → Kio β} {Q : β → Kernel → Prop}
    (rest : (k.procs p).state.Ready → Sat (next (k.procs p)) k anyStop Q) :
    Sat (acting p >>= next) k anyStop Q := by
  refine Sat.bind (Q := fun a s => (k.procs p = a ∧ k = s) ∧ (k.procs p).state.Ready) ?_ ?_
  · refine Sat.bind (Sat.gets (Q := fun a s => k.procs p = a ∧ k = s) ⟨rfl, rfl⟩) ?_
    rintro _ _ ⟨rfl, rfl⟩
    refine Sat.bind (Sat.stopIf (Q := fun _ s => k = s ∧ (k.procs p).state.Ready) (fun _ => trivial)
      fun ready => ⟨rfl, not_not.mp ready⟩) ?_
    rintro _ _ ⟨rfl, ready⟩
    exact Sat.pure ⟨⟨rfl, rfl⟩, ready⟩
  · rintro _ _ ⟨⟨rfl, rfl⟩, ready⟩
    exact rest ready

/-- User code can only store to the frames of its own table. -/
theorem Space.storeAddress (space : Space L v own l t S (topLeaves L f)) {a pa : ℕ}
    (found : storeAddress v (PGSIZE * t) a = some pa) :
    ∃ g, own g = .user t (a / PGSIZE) ∧ pa = PGSIZE * g + a % PGSIZE := by
  unfold HaloOS.storeAddress at found
  split at found
  · cases found
  have small : a / PGSIZE < 2 ^ 27 := by
    simp only [PGSIZE]
    omega
  by_cases inside : S (a / PGSIZE)
  · obtain ⟨g, flags, either, owner, entry⟩ := space.sv39_user inside
    refine ⟨g, owner, ?_⟩
    rw [entry] at found
    change (if (g * 1024 + flags) &&& PTE_U ≠ 0 ∧ (g * 1024 + flags) &&& PTE_W ≠ 0 then
      some (PTE2PA (g * 1024 + flags) + a % PGSIZE) else none) = some pa at found
    have managed := (space.pool.managed g (by simp [owner])).lt
    have page : PTE2PA (g * 1024 + flags) = PGSIZE * g :=
      entry_page managed (by rcases either with rfl | rfl <;> decide)
    split at found
    · rw [page] at found
      exact (Option.some.inj found).symm
    · cases found
  · rw [space.sv39_other small inside] at found
    split at found
    · rename_i pte here
      split at here
      · cases here
      · obtain rfl : topLeaves L f (a / PGSIZE) = pte := by simpa using here
        rw [topLeaves_closed] at found
        simp at found
    · cases found

theorem keeps_saveFrame (v : Vm) (f : ℕ) (frame : ℕ → ℕ) : Keeps v (saveFrame (PGSIZE * f) frame v) (· ≠ f) := by
  intro w other
  have outside : ¬ (PGSIZE * f / 8 ≤ w ∧ w < PGSIZE * f / 8 + 36) := by
    simp only [PGSIZE]
    omega
  simp [saveFrame, outside]

/-- Process `q` is still there: its record, but for state and parent, and its pages. -/
structure Alone (q : Fin NPROC) (k : Kernel) (own : ℕ → Owner) (k' : Kernel) (own' : ℕ → Owner) : Prop where
  record : ∃ state parent, k'.procs q = { k.procs q with state, parent } ∧ state.Ready
  spares : ∀ s, own s = .root q → Spares q s own k.vm own' k'.vm

theorem Alone.refl (ready : (k.procs q).state.Ready) : Alone q k own k own :=
  ⟨⟨_, _, rfl, ready⟩, fun _ _ => .refl⟩

theorem Alone.trans {k'' : Kernel} {own'' : ℕ → Owner} (first : Alone q k own k' own')
    (second : Alone q k' own' k'' own'') : Alone q k own k'' own'' := by
  obtain ⟨state, parent, record, ready⟩ := first.record
  obtain ⟨state', parent', record', ready'⟩ := second.record
  refine ⟨⟨state', parent', by rw [record', record], ready'⟩, fun s root => ?_⟩
  exact (first.spares s root).trans (second.spares s ((first.spares s root).root root))

theorem Alone.ready (alone : Alone q k own k' own') : (k'.procs q).state.Ready := by
  obtain ⟨state, parent, record, ready⟩ := alone.record
  rwa [record]

theorem Alone.same (procs : k'.procs q = k.procs q) (ready : (k.procs q).state.Ready)
    (spares : ∀ s, own s = .root q → Spares q s own k.vm own' k'.vm) : Alone q k own k' own' :=
  ⟨⟨_, _, procs, ready⟩, spares⟩

/-- The pages of the kernel are its own and hold what they did. -/
def Secured (own : ℕ → Owner) (v : Vm) (own' : ℕ → Owner) (v' : Vm) : Prop :=
  ∀ s, own s = .kernel → Spares NPROC s own v own' v'

/-- Every deed keeps the books and leaves alone whoever does not act, and the kernel. -/
theorem Does.step {d : Deed} (step : Does L k d k') (books : Books L k own l) :
    ∃ own' l', Books L k' own' l' ∧ Secured own k.vm own' k'.vm ∧
      ∀ q, (k.procs q).state.Ready → d.actor ≠ some q → Alone q k own k' own' := by
  obtain ⟨ran, plain⟩ := step
  have nobody : ∀ p : Fin NPROC, NPROC ≠ p := fun p => Nat.ne_of_gt p.isLt
  have served : ∀ {p : Fin NPROC}, Respects L p k own k' → d.actor = some p → ∃ own' l', Books L k' own' l' ∧
      Secured own k.vm own' k'.vm ∧ ∀ q, (k.procs q).state.Ready → d.actor ≠ some q → Alone q k own k' own' := by
    rintro p ⟨own', l', books', -, records, spares⟩ acts
    refine ⟨own', l', books', fun s kernel => spares _ s (nobody p) (standing_kernel _ k) (.inr kernel),
      fun q ready other => ?_⟩
    have differ : q ≠ p := by
      rintro rfl
      exact other acts
    obtain ⟨parent, record⟩ := records q differ ready
    exact ⟨⟨_, parent, record, ready⟩, fun s root =>
      spares q s (fun same => differ (Fin.ext same)) (standing_of ready) (.inl root)⟩
  cases d with
  | userinit =>
    obtain ⟨r, k₁, first, last⟩ := bind_ok.mp ran
    obtain ⟨-, rfl⟩ := pure_ok.mp last
    obtain ⟨own', l', books', -, spares⟩ := (userinit_spares books (plain l books.pool.links)).ok first
    have same := (userinit_others books).ok first
    refine ⟨own', l', books', fun s kernel => spares _ s (standing_kernel _ k) (.inr kernel),
      fun q ready _ => .same (same q ready.ne_unused) ready fun s root => ?_⟩
    exact spares q s (standing_of ready.ne_unused) (.inl root)
  | store p a b =>
    refine served (p := p) (Sat.ok (E := anyStop) (Q := fun _ k' => Respects L p k own k') ?_ ran) rfl
    refine sat_acting fun ready => ?_
    obtain ⟨t, f, table, frame, root, trap, tree, maps, whole⟩ := books.holds p ready.ne_unused
    have space : Space L k.vm own l t (· < pages (k.procs p).sz) (topLeaves L f) := ⟨books.pool, tree, maps⟩
    refine Sat.bind (Sat.gets (Q := fun a s => k.vm = a ∧ k = s) ⟨rfl, rfl⟩) ?_
    rintro _ _ ⟨rfl, rfl⟩
    split
    · rename_i pa found
      rw [table] at found
      obtain ⟨g, owner, rfl⟩ := space.storeAddress found
      have inside : a % PGSIZE + [b].length ≤ PGSIZE := Nat.mod_lt a (by decide)
      obtain ⟨space', within⟩ := space.scribble (.inr ⟨_, owner⟩) (keeps_writeBytes k.vm inside) rfl
      refine Sat.zoom (Sat.update ?_)
      refine ⟨own, l, books.inside ready.ne_unused table root trap frame whole space' within, ready.ne_unused,
        fun q _ _ => ⟨_, rfl⟩, fun q s other _ anchor => ?_⟩
      exact within.touches.spares (.inr root) other anchor
    · exact Sat.throw trivial
  | trap p frame =>
    refine served (p := p) (Sat.ok (E := anyStop) (Q := fun _ k' => Respects L p k own k') ?_ ran) rfl
    refine sat_acting fun ready => ?_
    obtain ⟨t, f, table, page, root, trap, -⟩ := books.holds p ready.ne_unused
    rw [page]
    have keeps := keeps_saveFrame k.vm f frame
    refine Sat.zoom (Sat.update ⟨own, l, Ledger.scribble books keeps rfl (.inl ⟨p, trap⟩), ready.ne_unused,
      fun q _ _ => ⟨_, rfl⟩, fun q s other _ anchor => ?_⟩)
    exact (watched_spares other anchor).poke trap keeps .refl
  | ecall p =>
    refine served (p := p) (Sat.ok (E := anyStop) (Q := fun _ k' => Respects L p k own k') ?_ ran) rfl
    exact sat_acting fun ready => (Respects.refl books ready.ne_unused).usertrapEcall ready plain
  | sched p state =>
    have moved : (k.procs p).state.Ready ∧ state.Ready ∧ k' = k.setProc p ({ · with state }) := by
      refine Sat.ok (E := anyStop) (Q := fun _ k' => (k.procs p).state.Ready ∧ state.Ready ∧
        k' = k.setProc p ({ · with state })) (sat_acting fun ready => ?_) ran
      refine Sat.bind (Sat.stopIf (Q := fun _ s => k = s ∧ state.Ready) (fun _ => trivial)
        fun next => ⟨rfl, not_not.mp next⟩) ?_
      rintro _ _ ⟨rfl, next⟩
      exact Sat.update ⟨ready, next, rfl⟩
    obtain ⟨ready, next, rfl⟩ := moved
    refine ⟨own, l, books.quiet (quiet_setProc ?_ ⟨rfl, rfl, rfl⟩), fun _ _ => .refl,
      fun q readyQ _ => ⟨?_, fun _ _ => .refl⟩⟩
    · simp [next.ne_unused, ready.ne_unused]
    · by_cases same : q = p
      · subst same
        exact ⟨state, (k.procs q).parent, Function.update_self .., next⟩
      · exact ⟨_, _, Function.update_of_ne same .., readyQ⟩
  | key c =>
    unfold Deed.run at ran
    obtain rfl := update_ok.mp ran
    exact ⟨own, l, books.quiet (quiet_of_procs rfl rfl), fun _ _ => .refl,
      fun q ready _ => .same rfl ready fun _ _ => .refl⟩

end Steps

section Runs

/-- Nothing that process `q` or the hardware on its behalf can see has changed. -/
structure Undisturbed (q : Fin NPROC) (k k' : Kernel) : Prop where
  record : ∃ state parent, k'.procs q = { k.procs q with state, parent } ∧ state.Ready
  frame : ∀ i < 512, k'.vm.load ((k.procs q).trapframe + 8 * i) = k.vm.load ((k.procs q).trapframe + 8 * i)
  table : ∀ u < 2 ^ 27, k'.translate q u = k.translate q u
  memory : ∀ a < 2 ^ 39, userAt k'.vm (k'.procs q).pagetable a = userAt k.vm (k.procs q).pagetable a

theorem Alone.undisturbed {l' : List ℕ} (alone : Alone q k own k' own') (books : Books L k own l)
    (books' : Books L k' own' l') (ready : (k.procs q).state.Ready) : Undisturbed q k k' := by
  obtain ⟨s, f, table, frame, root, trap, space⟩ := books.space ready.ne_unused
  obtain ⟨s', f', table', frame', root', trap', space'⟩ := books'.space alone.ready.ne_unused
  obtain ⟨state, parent, record, -⟩ := alone.record
  have spares := alone.spares s root
  obtain rfl : s = s' := by
    rw [record] at table'
    exact PGSIZE_inj (table.symm.trans table')
  have kept : ∀ n, n = s ∨ (own n).under s →
      own' n = own n ∧ ∀ k₁ < 512, k'.vm.mem (512 * n + k₁) = k.vm.mem (512 * n + k₁) := by
    rintro n (rfl | inner)
    · exact spares n (.inl root)
    · exact spares n (.inr (.inr (.inl inner)))
  refine ⟨alone.record, fun i small => ?_, fun u small => ?_, fun a small => ?_⟩
  · have word : (PGSIZE * f + 8 * i) / 8 = 512 * f + i := by
      simp only [PGSIZE]
      omega
    unfold Vm.load
    rw [frame, word]
    exact (spares f (.inr (.inl trap))).2 i small
  · unfold Kernel.translate
    rw [table, table']
    exact space.sv39_kept space'.tree space'.pool kept small
  · rw [table, table']
    exact space.userAt_kept space'.tree space'.pool kept small

/-- The books are kept in every run. -/
theorem Booted.does {l₀ : List ℕ} {past : List Deed} (boot : Booted L k₀ l₀) (run : Trace (Does L) k₀ past k) :
    ∃ own l, Books L k own l := by
  refine run.invariant (fun _ k => ∃ own l, Books L k own l) ?_ ?_
  · obtain ⟨own, books, -⟩ := boot.books
    exact ⟨own, l₀, books⟩
  · rintro - k d k' ⟨own, l, books⟩ step
    obtain ⟨own', l', books', -⟩ := step.step books
    exact ⟨own', l', books'⟩

theorem Alone.run {later : List Deed} (books : Books L k own l) (ready : (k.procs q).state.Ready)
    (on : Trace (fun k d k' => Does L k d k' ∧ d.actor ≠ some q) k later k') :
    ∃ own' l', Books L k' own' l' ∧ Alone q k own k' own' := by
  refine on.invariant (fun _ k' => ∃ own' l', Books L k' own' l' ∧ Alone q k own k' own') ⟨own, l, books, .refl ready⟩ ?_
  rintro - k₁ d k₂ ⟨own₁, l₁, books₁, alone₁⟩ ⟨step, other⟩
  obtain ⟨own₂, l₂, books₂, -, alone₂⟩ := step.step books₁
  exact ⟨own₂, l₂, books₂, alone₁.trans (alone₂ q alone₁.ready other)⟩

/-- A process that does nothing for a while finds its registers, its memory, its files and its page table as
they were, whatever programs the other processes run in the meantime. -/
theorem isolation {l₀ : List ℕ} {past later : List Deed} (boot : Booted L k₀ l₀)
    (run : Trace (Does L) k₀ past k) (ready : (k.procs q).state.Ready)
    (on : Trace (fun k d k' => Does L k d k' ∧ d.actor ≠ some q) k later k') : Undisturbed q k k' := by
  obtain ⟨own, l, books⟩ := boot.does run
  obtain ⟨own', l', books', alone⟩ := Alone.run books ready on
  exact alone.undisturbed books books' ready

/-- The pages that the kernel had taken before `userinit` stay its own and hold what they did. -/
theorem Booted.secured {l₀ : List ℕ} {past : List Deed} (boot : Booted L k₀ l₀) (run : Trace (Does L) k₀ past k) :
    ∃ own l, Books L k own l ∧ ∀ n ∉ l₀, own n = .kernel ∧ ∀ i < 512, k.vm.mem (512 * n + i) = k₀.vm.mem (512 * n + i) := by
  refine run.invariant (fun _ k => ∃ own l, Books L k own l ∧ ∀ n ∉ l₀, own n = .kernel ∧
    ∀ i < 512, k.vm.mem (512 * n + i) = k₀.vm.mem (512 * n + i)) ?_ ?_
  · obtain ⟨own, books, sound⟩ := boot.books
    exact ⟨own, l₀, books, fun n outside => ⟨(sound n).1.mpr outside, fun _ _ => rfl⟩⟩
  · rintro - k d k' ⟨own, l, books, kept⟩ step
    obtain ⟨own', l', books', secured, -⟩ := step.step books
    refine ⟨own', l', books', fun n outside => ?_⟩
    obtain ⟨kernel, words⟩ := kept n outside
    obtain ⟨same, words'⟩ := secured n kernel n (.inr (.inr (.inr kernel)))
    exact ⟨same.trans kernel, fun i inside => (words' i inside).trans (words i inside)⟩

/-- A walk of the hardware reads pages of the table only. -/
theorem sv39_congr {mem mem' : ℕ → ℕ} (same : ∀ n, TablePage mem (PGSIZE * t) n → ∀ i < 512, mem' (512 * n + i) = mem (512 * n + i))
    (u : ℕ) : sv39 mem' u 2 (PGSIZE * t) = sv39 mem u 2 (PGSIZE * t) := by
  have slot : ∀ level, PX level (PGSIZE * u) < 512 := fun level => Nat.mod_lt _ (by decide)
  have aligned : ∀ pte, ∃ n, PTE2PA pte = PGSIZE * n := by
    intro pte
    refine ⟨PTE2PA pte / PGSIZE, ?_⟩
    simp only [PTE2PA, PGSIZE, WORD]
    omega
  have root := same t (.inl (page_number t).symm)
  have top := root _ (slot 2)
  unfold sv39
  dsimp only
  rw [page_words, top]
  by_cases blank : mem (512 * t + PX 2 (PGSIZE * u)) &&& PTE_V = 0
  · rw [if_pos blank, if_pos blank]
  rw [if_neg blank, if_neg blank]
  refine if_congr Iff.rfl rfl ?_
  obtain ⟨n, page⟩ := aligned (mem (512 * t + PX 2 (PGSIZE * u)))
  have inner : TablePage mem (PGSIZE * t) n := by
    refine .inr ⟨_, slot 2, by rwa [page_words], .inl ?_⟩
    rw [page_words, page, page_number]
  unfold sv39
  dsimp only
  rw [page, page_words, same n inner _ (slot 1)]
  by_cases hole : mem (512 * n + PX 1 (PGSIZE * u)) &&& PTE_V = 0
  · rw [if_pos hole, if_pos hole]
  rw [if_neg hole, if_neg hole]
  refine if_congr Iff.rfl rfl ?_
  obtain ⟨m, page'⟩ := aligned (mem (512 * n + PX 1 (PGSIZE * u)))
  have bottom : TablePage mem (PGSIZE * t) m := by
    refine .inr ⟨_, slot 2, by rwa [page_words], .inr ⟨_, slot 1, ?_, ?_⟩⟩
    · rwa [page_words, page, page_words]
    · rw [page_words, page, page_words, page', page_number]
  unfold sv39
  dsimp only
  rw [page', page_words, same m bottom _ (slot 0)]

/-- Carry out deeds that come after `userinit`. -/
def doAll (L : Layout) : List Deed → Kio Unit
  | [] => pure ()
  | .userinit :: _ => throw .fault
  | .ecall p :: rest => do
    let a7 ← trapword p A7
    stopIf (a7 % UINT = SYS_SBRK) .fault
    (Deed.ecall p).run L
    doAll L rest
  | d :: rest => do
    d.run L
    doAll L rest

theorem doAll_trace {deeds : List Deed} {P : Deed → Prop} (returns : doAll L deeds k = .ok ((), k'))
    (all : ∀ d ∈ deeds, P d) : Trace (fun k d k' => Does L k d k' ∧ P d) k deeds k' := by
  induction deeds generalizing k with
  | nil =>
    obtain ⟨-, rfl⟩ := pure_ok.mp returns
    exact .nil
  | cons d rest ih =>
    obtain ⟨k₁, done, later⟩ : ∃ k₁, Does L k d k₁ ∧ doAll L rest k₁ = .ok ((), k') := by
      cases d with
      | userinit => cases returns
      | ecall p =>
        obtain ⟨a7, _, read, next⟩ := bind_ok.mp returns
        obtain ⟨rfl, rfl⟩ := gets_ok.mp read
        obtain ⟨_, _, checked, next⟩ := bind_ok.mp next
        obtain ⟨other, rfl⟩ := stopIf_ok.mp checked
        obtain ⟨_, k₁, first, later⟩ := bind_ok.mp next
        exact ⟨k₁, ⟨first, other⟩, later⟩
      | store p a b =>
        obtain ⟨_, k₁, first, later⟩ := bind_ok.mp returns
        exact ⟨k₁, ⟨first, trivial⟩, later⟩
      | trap p frame =>
        obtain ⟨_, k₁, first, later⟩ := bind_ok.mp returns
        exact ⟨k₁, ⟨first, trivial⟩, later⟩
      | sched p state =>
        obtain ⟨_, k₁, first, later⟩ := bind_ok.mp returns
        exact ⟨k₁, ⟨first, trivial⟩, later⟩
      | key c =>
        obtain ⟨_, k₁, first, later⟩ := bind_ok.mp returns
        exact ⟨k₁, ⟨first, trivial⟩, later⟩
    exact (Trace.single ⟨done, all d (by simp)⟩).append (ih later fun d member => all d (by simp [member]))

end Runs

section Sample

/-- A trapframe that asks for a system call. -/
def asking (num : ℕ) : ℕ → ℕ := fun i => if i = 21 then num else i

/-- A run from boot. -/
theorem started {deeds : List Deed} {k₁ : Kernel} (boot : Booted smallLayout k₀ (List.range' FIRSTPG 30))
    (start : Deed.userinit.run smallLayout k₀ = .ok ((), k₁)) (returns : doAll smallLayout deeds k₁ = .ok ((), k)) :
    Trace (Does smallLayout) k₀ ([.userinit] ++ deeds) k := by
  have room : Room k₀ .userinit := by
    intro l links
    rw [links.unique boot.links, List.length_range']
    decide
  exact (Trace.single ⟨start, room⟩).append
    ((doAll_trace (P := fun _ => True) returns fun _ _ => trivial).mono fun _ _ _ step => step.1)

/-- The first process forks; then it stores into its memory, closes a bad descriptor and forks again, while
its child waits to be scheduled. -/
theorem isolation_child : ∃ k k', Undisturbed 1 k k' ∧ userAt k.vm (k.procs 1).pagetable 4 = some 0x13 ∧
    userAt k'.vm (k'.procs 0).pagetable 4 = some 0x55 ∧ (k'.procs 2).state = .runnable := by
  have boot := bootKernel_booted 30 (by decide)
  obtain ⟨_, k', returned, facts⟩ := outcome_some (m := do
      Deed.userinit.run smallLayout
      doAll smallLayout [.trap 0 (asking SYS_FORK), .ecall 0]
      let k ← gets id
      stopIf (¬ ((k.procs 1).state = .runnable ∧ userAt k.vm (k.procs 1).pagetable 4 = some 0x13)) .fault
      doAll smallLayout [.store 0 4 0x55, .trap 0 (asking SYS_CLOSE), .ecall 0, .trap 0 (asking SYS_FORK), .ecall 0])
    (k := bootKernel 30)
    (f := fun k => (userAt k.vm (k.procs 0).pagetable 4, (k.procs 2).state)) (b := (some 0x55, .runnable))
    (by decide +kernel)
  obtain ⟨_, k₁, start, rest⟩ := bind_ok.mp returned
  obtain ⟨_, k, forked, rest⟩ := bind_ok.mp rest
  obtain ⟨_, _, read, rest⟩ := bind_ok.mp rest
  obtain ⟨rfl, rfl⟩ := gets_ok.mp read
  obtain ⟨_, _, checked, later⟩ := bind_ok.mp rest
  obtain ⟨child, rfl⟩ := stopIf_ok.mp checked
  obtain ⟨state, byte⟩ := not_not.mp child
  have on : Trace (fun k d k' => Does smallLayout k d k' ∧ d.actor ≠ some 1) k _ k' :=
    (doAll_trace (P := fun d => d.actor = some 0) later (by simp [Deed.actor])).mono
      fun _ _ _ step => ⟨step.1, by rw [step.2]; decide⟩
  obtain ⟨stored, again⟩ := Prod.ext_iff.mp facts
  exact ⟨k, k', isolation boot (started boot start forked) (.inr (.inl state)) on, byte, stored, again⟩

end Sample

end HaloOS
