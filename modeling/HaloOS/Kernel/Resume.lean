import HaloOS.Kernel.Trap
import HaloOS.Kernel.Footprint
import HaloOS.Vm.KernelTable

/-! From user code to user code: what a program finds when it goes on after a trap, whatever the kernel and the other
processes have done in the meantime. -/

namespace HaloOS

open Lib

variable {L : Layout} {own own' : ℕ → Owner} {l : List ℕ} {k k' k₀ k₁ k₂ : Kernel} {p : Fin NPROC} {v v' : Vm}
  {t f : ℕ} {S : ℕ → Prop}

section Cycle

variable {code : ℕ → Option (Instr Csr × ℕ)} {m₀ : ℕ → ℕ} {kt id pc : ℕ} {text : Text L code} {c : Cpu Csr Vm}
  {reg : Reg → ℕ} {view : ℕ → Option Byte}

/-- The kernel's page table is as it was in the memory `m₀`, where it maps the trampoline. -/
structure KernelTable (L : Layout) (m₀ : ℕ → ℕ) (own : ℕ → Owner) (kt : ℕ) (v : Vm) : Prop where
  small : kt < 2 ^ 44
  pages : ∀ n, TablePage m₀ (PGSIZE * kt) n → own n = .kernel ∧ ∀ i < 512, v.mem (512 * n + i) = m₀ (512 * n + i)
  entry : sv39 m₀ TRAMPOLINEPG 2 (PGSIZE * kt) = some (0, L.trampoline / PGSIZE * 1024 + 11)

theorem KernelTable.found (kernel : KernelTable L m₀ own kt v) :
    sv39 v.mem TRAMPOLINEPG 2 (PGSIZE * kt) = some (0, L.trampoline / PGSIZE * 1024 + 11) :=
  (sv39_congr (fun n page => (kernel.pages n page).2) _).trans kernel.entry

theorem KernelTable.keeps (kernel : KernelTable L m₀ own kt v) (keeps : Keeps v v' (· ≠ f)) (used : own f ≠ .kernel) :
    KernelTable L m₀ own kt v' where
  small := kernel.small
  pages := by
    intro n page
    obtain ⟨owner, words⟩ := kernel.pages n page
    refine ⟨owner, fun i inside => (keeps.at ?_ inside).trans (words i inside)⟩
    rintro rfl
    exact used owner
  entry := kernel.entry

/-- Hart `id` executes the code of process `p`. The trapframe holds what the way into the kernel needs. -/
structure InUser (text : Text L code) (kt id : ℕ) (k : Kernel) (p : Fin NPROC) (c : Cpu Csr Vm) : Prop where
  mem : c.mem = k.vm
  satp : c.csr .satp = MAKE_SATP (k.procs p).pagetable
  scratch : c.csr .sscratch = TRAPFRAME
  vector : c.csr .stvec = TRAMPOLINE + text.uservec
  mode : c.csr .mode = USER
  table : k.vm.load (k.procs p).trapframe = MAKE_SATP (PGSIZE * kt)
  stack : k.vm.load ((k.procs p).trapframe + 8) = KSTACK p + PGSIZE
  handler : k.vm.load ((k.procs p).trapframe + 16) = text.usertrap
  hart : k.vm.load ((k.procs p).trapframe + 32) = id

/-- Hart `id` executes the code of the kernel. -/
structure InKernel (kt id : ℕ) (k : Kernel) (c : Cpu Csr Vm) : Prop where
  mem : c.mem = k.vm
  satp : c.csr .satp = MAKE_SATP (PGSIZE * kt)
  mode : c.csr .mode = SUPERVISOR
  hart : c.reg .tp = id

/-- The process as its code knows it: registers and program counter in the trapframe, and memory. -/
structure Frozen (k : Kernel) (p : Fin NPROC) (pc : ℕ) (reg : Reg → ℕ) (view : ℕ → Option Byte) : Prop where
  epc : k.vm.load ((k.procs p).trapframe + EPC) = pc
  regs : ∀ r, k.vm.load ((k.procs p).trapframe + place r) = reg r
  memory : ∀ a < 2 ^ 39, userAt k.vm (k.procs p).pagetable a = view a

/-- Work in the trapframe page does not show in user memory. -/
theorem Space.userAt_keeps (space : Space L v own l t S (topLeaves L f)) (trap : own f = .trapframe p)
    (keeps : Keeps v v' (· ≠ f)) (freelist : v'.freelist = v.freelist) {a : ℕ} (small : a < 2 ^ 39) :
    userAt v' (PGSIZE * t) a = userAt v (PGSIZE * t) a := by
  have space' := (space.poke (by simp [trap]) (by simp [trap]) (by simp [trap, Owner.under]) keeps freelist).1
  refine space.userAt_kept space'.tree space'.pool (fun n inner => ⟨rfl, fun i inside => keeps.at ?_ inside⟩) small
  obtain ⟨q, root⟩ := space.tree.root
  rintro rfl
  rcases inner with rfl | inner
  · simp [trap] at root
  · simp [trap, Owner.under] at inner

/-- A change of the first 36 words of a trapframe is a trap of the process. -/
theorem does_trap (words : ℕ → ℕ) (ready : (k.procs p).state.Ready) (frame : (k.procs p).trapframe = PGSIZE * f)
    (keeps : Keeps k.vm v' (· ≠ f)) (freelist : v'.freelist = k.vm.freelist)
    (first : ∀ i < 36, v'.load (PGSIZE * f + 8 * i) = words i)
    (rest : ∀ i, 36 ≤ i → v'.load (PGSIZE * f + 8 * i) = k.vm.load (PGSIZE * f + 8 * i)) :
    Does L k (.trap p words) { k with vm := v' } := by
  have word : ∀ i, (PGSIZE * f + 8 * i) / 8 = 512 * f + i := by
    intro i
    simp only [PGSIZE]
    omega
  have start : PGSIZE * f / 8 = 512 * f := page_words f
  have same : saveFrame (PGSIZE * f) words k.vm = v' := by
    obtain ⟨mem, list⟩ := v'
    obtain rfl : list = k.vm.freelist := freelist
    unfold saveFrame
    congr 1
    funext w
    rw [start]
    by_cases inside : 512 * f ≤ w ∧ w < 512 * f + 36
    · have now := first (w - 512 * f) (by omega)
      unfold Vm.load at now
      rw [word, Nat.add_sub_cancel' inside.1] at now
      rw [if_pos inside, ← now]
    · rw [if_neg inside]
      by_cases page : w / 512 = f
      · have later := rest (w - 512 * f) (by omega)
        unfold Vm.load at later
        rw [word, show 512 * f + (w - 512 * f) = w by omega] at later
        exact later.symm
      · exact (keeps w page).symm
  have acts : acting p k = .ok (k.procs p, k) :=
    bind_ok.mpr ⟨_, k, rfl, bind_ok.mpr ⟨(), k, stopIf_ok.mpr ⟨not_not.mpr ready, rfl⟩, rfl⟩⟩
  refine ⟨bind_ok.mpr ⟨_, k, acts, zoom_ok.mpr ⟨v', ?_, rfl⟩⟩, trivial⟩
  rw [frame]
  exact update_ok.mpr same

/-- The trapframe with the registers and the program counter in their places. -/
def frameWords (old : ℕ → ℕ) (pc : ℕ) (reg : Reg → ℕ) (i : ℕ) : ℕ :=
  if i = 3 then pc
  else match saved.find? fun slot => slot.2 = 8 * i with
    | some slot => reg slot.1
    | none => if i = 14 then reg .a0 else old i

theorem place_range (r : Reg) : 40 ≤ place r ∧ place r < 288 ∧ 8 ∣ place r := by cases r <;> decide

/-- The way into the kernel for a trap at `pc`: `uservec` reaches `usertrap` in the kernel's page table and on the kernel
stack of the process, and `usertrap` saves the program counter. -/
structure TrapIn (text : Text L code) (kt id : ℕ) (k : Kernel) (p : Fin NPROC) (c : Cpu Csr Vm) (cause pc : ℕ)
    (c₁ : Cpu Csr Vm) (k₁ : Kernel) : Prop where
  runs : Runs (bus code) (trapEntry cause pc c) (text.usertrap, c₁)
  kernel : InKernel kt id { k with vm := c₁.mem } c₁
  cause : c₁.csr .scause = cause
  stack : c₁.reg .sp = KSTACK p + PGSIZE
  saved : k₁ = { k with vm := c₁.mem.store ((k.procs p).trapframe + EPC) (c₁.csr .sepc) }
  does : Does L k (.trap p (frameWords (fun i => k.vm.load ((k.procs p).trapframe + 8 * i)) pc c.reg)) k₁

/-- The way back: `usertrapret` and `userret` end in the user code of the process, at `pc`, with the registers `reg` and
the memory `view`, with interrupts on and everything in place for the next trap. -/
structure TrapOut (text : Text L code) (kt id : ℕ) (k : Kernel) (p : Fin NPROC) (c : Cpu Csr Vm) (pc : ℕ) (reg : Reg → ℕ)
    (view : ℕ → Option Byte) (c' : Cpu Csr Vm) : Prop where
  runs : Runs (bus code) (usertrapret text p (k.procs p) c) (pc, c')
  does : ∃ words, Does L k (.trap p words) { k with vm := c'.mem }
  user : InUser text kt id { k with vm := c'.mem } p c'
  interrupts : c'.csr .sstatus &&& SSTATUS_SIE ≠ 0
  regs : c'.reg = reg
  memory : ∀ a < 2 ^ 39, userAt c'.mem (k.procs p).pagetable a = view a

/-- A trap from user code freezes the process. -/
theorem trapIn (books : Books L k own l) (ready : (k.procs p).state.Ready) (kernel : KernelTable L m₀ own kt k.vm)
    (user : InUser text kt id k p c) (cause pc : ℕ) : ∃ c₁ k₁, TrapIn text kt id k p c cause pc c₁ k₁ ∧
      Frozen k₁ p pc c.reg (userAt k.vm (k.procs p).pagetable) := by
  obtain ⟨t, f, table, frame, root, trap, space⟩ := books.space ready.ne_unused
  obtain ⟨mem, satp, scratch, vector, mode, word, stack, handler, hart⟩ := user
  rw [frame, ← mem] at word stack handler hart
  rw [table] at satp
  obtain ⟨csr, csr_def⟩ : ∃ csr, csr = (trapEntry cause pc c).2.csr := ⟨_, rfl⟩
  have other : ∀ r, r ≠ .mode → r ≠ .sstatus → r ≠ .sepc → r ≠ .scause → csr r = c.csr r := by
    intro r one two three four
    rw [csr_def]
    exact (Function.update_of_ne two _ _).trans ((Function.update_of_ne one _ _).trans
      ((Function.update_of_ne four _ _).trans (Function.update_of_ne three _ _)))
  have entry : trapEntry cause pc c = (TRAMPOLINE + text.uservec, { c with csr }) := by
    rw [csr_def, ← vector]
    rfl
  have crossing : Crossing L own l t f (· < k.userPages p) c.mem csr c.mem := by
    refine ⟨?_, by rw [csr_def]; rfl, by rwa [mem], fun _ _ => rfl, rfl⟩
    rw [other _ (by decide) (by decide) (by decide) (by decide), satp]
  have used : own f ≠ .kernel := by simp [trap]
  obtain ⟨c₁, runs, entered⟩ := uservec_runs (c := { c with csr }) trap text crossing
    ((other _ (by decide) (by decide) (by decide) (by decide)).trans scratch) kernel.small word
    fun v keeps => (kernel.keeps (mem ▸ keeps) used).found
  obtain ⟨satp₁, csr₁, sp, tp, saves⟩ := entered
  have epc : c₁.csr .sepc = pc := (csr₁ .sepc (by decide) (by decide)).trans (by rw [csr_def]; rfl)
  have keeps : Keeps k.vm (c₁.mem.store (PGSIZE * f + EPC) pc) (· ≠ f) := by
    rw [← mem]
    exact saves.keeps.trans (keeps_store (n := f) c₁.mem (k := 3) (by decide) pc)
  have freelist : (c₁.mem.store (PGSIZE * f + EPC) pc).freelist = k.vm.freelist := by
    rw [← mem]
    exact saves.freelist
  have others : ∀ i, i ≠ 3 → (∀ r, 8 * i ≠ place r) →
      (c₁.mem.store (PGSIZE * f + EPC) pc).load (PGSIZE * f + 8 * i) = k.vm.load (PGSIZE * f + 8 * i) := by
    intro i three outside
    rw [load_store_page _ (by decide) (Nat.dvd_mul_right 8 i), if_neg (by unfold EPC; omega), ← mem]
    exact saves.other _ (Nat.dvd_mul_right 8 i) outside
  have regs : ∀ r, (c₁.mem.store (PGSIZE * f + EPC) pc).load (PGSIZE * f + place r) = c.reg r := by
    intro r
    have range := place_range r
    rw [load_store_page _ (by decide) range.2.2, if_neg (by unfold EPC; omega)]
    exact saves.regs r
  have does := does_trap (L := L) (frameWords (fun i => k.vm.load (PGSIZE * f + 8 * i)) pc c.reg) ready frame keeps
    freelist (fun i small => ?_) fun i high => others i (by omega) fun r => by have := place_range r; omega
  swap
  · unfold frameWords
    split
    · rename_i three
      rw [three]
      exact (load_store_page _ (by decide) (by decide) pc).trans (if_pos rfl)
    · rename_i three
      split
      · rename_i slot found
        have at_ : slot.2 = 8 * i := by simpa using List.find?_some found
        have named : ∀ slot ∈ saved, slot.2 = place slot.1 := by decide
        rw [← at_, named slot (List.mem_of_find?_eq_some found)]
        exact regs slot.1
      · rename_i missing
        split
        · rename_i last
          rw [last]
          exact regs .a0
        · rename_i last
          refine others i three fun r same => ?_
          by_cases a0 : r = .a0
          · rw [a0, show place .a0 = 112 from rfl] at same
            omega
          · have absent := List.find?_eq_none.mp missing _ (mem_saved a0)
            simp [same] at absent
  rw [← frame] at does
  refine ⟨c₁, _, ⟨?_, ⟨rfl, satp₁, ?_, tp.trans hart⟩, ?_, sp.trans stack, rfl, by rwa [epc, frame] at *⟩, ?_,
    fun r => ?_, fun a small => ?_⟩
  · rw [entry, ← handler]
    exact runs
  · exact (csr₁ .mode (by decide) (by decide)).trans crossing.mode
  · exact (csr₁ .scause (by decide) (by decide)).trans (by rw [csr_def]; rfl)
  · rw [epc, frame, load_store_page _ (by decide) (by decide), if_pos rfl]
  · rw [epc, frame]
    exact regs r
  · rw [epc, frame, table]
    exact space.userAt_keeps trap keeps freelist small

theorem and_two_pow_eq_zero (x i : ℕ) : x &&& 2 ^ i = 0 ↔ x.testBit i = false := by
  constructor
  · intro zero
    simpa using congrArg (Nat.testBit · i) zero
  · intro off
    refine Nat.eq_of_testBit_eq fun j => ?_
    by_cases same : i = j
    · subst same
      simp [off]
    · simp [same]

theorem interrupts_on (x : ℕ) : (x ||| SSTATUS_SIE) &&& SSTATUS_SIE ≠ 0 := by
  unfold SSTATUS_SIE
  rw [Ne, and_two_pow_eq_zero, Nat.testBit_or, Nat.testBit_two_pow_self, Bool.or_true]
  decide

/-- The status that `usertrapret` sets leads to user mode with interrupts on. -/
theorem status_back (x : ℕ) : (andNot (andNot x SSTATUS_SIE) SSTATUS_SPP ||| SSTATUS_SPIE) &&& SSTATUS_SPP = 0 ∧
    (andNot (andNot x SSTATUS_SIE) SSTATUS_SPP ||| SSTATUS_SPIE) &&& SSTATUS_SPIE ≠ 0 := by
  unfold andNot SSTATUS_SPP SSTATUS_SPIE SSTATUS_SIE
  rw [Ne, and_two_pow_eq_zero, and_two_pow_eq_zero]
  simp [-Nat.reducePow]

/-- A frozen process resumes. -/
theorem trapOut (books : Books L k own l) (ready : (k.procs p).state.Ready) (kernel : KernelTable L m₀ own kt k.vm)
    (inside : InKernel kt id k c) (frozen : Frozen k p pc reg view) : ∃ c', TrapOut text kt id k p c pc reg view c' := by
  obtain ⟨t, f, table, frame, root, trap, space⟩ := books.space ready.ne_unused
  obtain ⟨mem, satp, mode, hart⟩ := inside
  obtain ⟨epc, regs, memory⟩ := frozen
  rw [frame] at epc regs
  obtain ⟨v, v_def⟩ : ∃ v, v = (((c.mem.store (PGSIZE * f) (c.csr .satp)).store (PGSIZE * f + 8) (KSTACK p + PGSIZE)).store
    (PGSIZE * f + 16) text.usertrap).store (PGSIZE * f + 32) (c.reg .tp) := ⟨_, rfl⟩
  have load : ∀ off, 8 ∣ off → v.load (PGSIZE * f + off) = if off = 32 then c.reg .tp else if off = 16 then text.usertrap
      else if off = 8 then KSTACK p + PGSIZE else if off = 0 then c.csr .satp else k.vm.load (PGSIZE * f + off) := by
    intro off whole
    rw [v_def, load_store_page _ (by decide) whole, load_store_page _ (by decide) whole, load_store_page _ (by decide) whole,
      ← mem]
    have first := load_store_page (f := f) c.mem (dvd_zero 8) whole (c.csr .satp)
    rw [Nat.add_zero] at first
    rw [first]
  have keeps : Keeps k.vm v (· ≠ f) := by
    rw [v_def, ← mem]
    exact (((keeps_store (n := f) c.mem (k := 0) (by decide) _).trans (keeps_store _ (k := 1) (by decide) _)).trans
      (keeps_store _ (k := 2) (by decide) _)).trans (keeps_store _ (k := 4) (by decide) _)
  have freelist : v.freelist = k.vm.freelist := by
    rw [v_def, ← mem]
    rfl
  obtain ⟨csr, csr_def⟩ : ∃ csr, csr = (usertrapret text p (k.procs p) c).2.csr := ⟨_, rfl⟩
  obtain ⟨reg₀, reg₀_def⟩ : ∃ reg₀, reg₀ = Function.update (Function.update c.reg .a0 TRAPFRAME) .a1
    (MAKE_SATP (PGSIZE * t)) := ⟨_, rfl⟩
  have a0 : reg₀ .a0 = TRAPFRAME := by rw [reg₀_def, Function.update_of_ne (by decide), Function.update_self]
  have a1 : reg₀ .a1 = MAKE_SATP (PGSIZE * t) := by rw [reg₀_def, Function.update_self]
  have start : usertrapret text p (k.procs p) c = (TRAMPOLINE + text.userret, ⟨reg₀, csr, v⟩) := by
    rw [csr_def, v_def, reg₀_def, ← table, ← frame]
    rfl
  have other : ∀ r, r ≠ .sepc → r ≠ .sstatus → r ≠ .stvec → csr r = c.csr r := by
    intro r one two three
    rw [csr_def]
    exact (Function.update_of_ne one _ _).trans ((Function.update_of_ne two _ _).trans (Function.update_of_ne three _ _))
  have used : own f ≠ .kernel := by simp [trap]
  have sees : Sees L csr v := sees_entry ((other _ (by decide) (by decide) (by decide)).trans satp) kernel.small
    ((other _ (by decide) (by decide) (by decide)).trans mode) (kernel.keeps keeps used).found
  have space' := (space.poke (by simp [trap]) (by simp [trap]) (by simp [trap, Owner.under]) keeps freelist).1
  obtain ⟨c', runs, resumed⟩ := userret_runs (c := ⟨reg₀, csr, v⟩) trap text sees
    ((other _ (by decide) (by decide) (by decide)).trans mode) space' a0 a1
  obtain ⟨regs', mem', satp', scratch', back, csr', rest⟩ := resumed
  have pc' : csr .sepc = pc := by
    have word : csr .sepc = v.load (PGSIZE * f + EPC) := by rw [csr_def, v_def, ← frame]; rfl
    rw [word, load EPC (by decide)]
    exact epc
  have does := does_trap (L := L) (fun i => v.load (PGSIZE * f + 8 * i)) ready frame keeps freelist
    (fun _ _ => rfl) fun i high => by
    rw [load _ (Nat.dvd_mul_right 8 i), if_neg (by omega), if_neg (by omega), if_neg (by omega), if_neg (by omega)]
  have status : back .sstatus = andNot (andNot (c.csr .sstatus) SSTATUS_SIE) SSTATUS_SPP ||| SSTATUS_SPIE := by
    rw [rest _ (by decide) (by decide), csr_def]
    rfl
  obtain ⟨user, armed⟩ := status_back (c.csr .sstatus)
  rw [← status] at user armed
  refine ⟨c', ?_, ⟨_, by rwa [mem']⟩, ?_, ?_, ?_, ?_⟩
  · rw [start, ← pc']
    exact runs
  · constructor
    case mem => rfl
    case satp => rw [satp', table]
    case scratch => exact scratch'
    case vector =>
      rw [csr', sret_other back (by decide) (by decide), rest _ (by decide) (by decide), csr_def]
      rfl
    case mode =>
      rw [csr']
      exact (sret_mode back).trans (if_pos user)
    all_goals
      dsimp only
      rw [frame, mem']
    case table => exact (load 0 (by decide)).trans satp
    case stack => exact load 8 (by decide)
    case handler => exact load 16 (by decide)
    case hart => exact (load 32 (by decide)).trans hart
  · rw [csr', sret_sstatus, if_neg armed]
    exact interrupts_on _
  · funext r
    have range := place_range r
    rw [regs' r, ← regs r]
    refine (load _ range.2.2).trans ?_
    rw [if_neg (by omega), if_neg (by omega), if_neg (by omega), if_neg (by omega)]
  · intro a small
    rw [← memory a small, mem', table]
    exact space.userAt_keeps trap keeps freelist small

end Cycle

section Resuming

variable {code : ℕ → Option (Instr Csr × ℕ)} {kt id pc num : ℕ} {text : Text L code} {c : Cpu Csr Vm}
  {reg : Reg → ℕ} {view : ℕ → Option Byte} {l₀ : List ℕ} {past : List Deed}

theorem Frozen.undisturbed (frozen : Frozen k p pc reg view) (undisturbed : Undisturbed p k k') : Frozen k' p pc reg view := by
  obtain ⟨⟨state, parent, record, -⟩, frame, -, memory⟩ := undisturbed
  have table : (k'.procs p).trapframe = (k.procs p).trapframe := by rw [record]
  refine ⟨?_, fun r => ?_, fun a small => (memory a small).trans (frozen.memory a small)⟩
  · rw [table]
    exact (frame 3 (by decide)).trans frozen.epc
  · obtain ⟨-, small, i, word⟩ := place_range r
    have regs := frozen.regs r
    rw [table]
    rw [word] at regs small ⊢
    exact (frame i (by omega)).trans regs

/-- The kernel's page table, made of pages that are not free and mapping the trampoline. -/
structure KernelTaken (L : Layout) (v : Vm) (l : List ℕ) (kt : ℕ) : Prop where
  small : kt < 2 ^ 44
  taken : ∀ n, TablePage v.mem (PGSIZE * kt) n → n ∉ l
  entry : sv39 v.mem TRAMPOLINEPG 2 (PGSIZE * kt) = some (0, L.trampoline / PGSIZE * 1024 + 11)

/-- The page table starts with a page off the free list. -/
theorem kvmmake_root (free : FreeList L v l) : Sat (kvmmake L) v anyStop fun kpg _ => kpg = 0 ∨ ∃ t ∈ l, kpg = PGSIZE * t := by
  refine Sat.bind (Q := fun kpg _ => kpg = 0 ∨ ∃ t ∈ l, kpg = PGSIZE * t) (free.kalloc.mono ?_) ?_
  · rintro r v₁ (⟨zero, -, -⟩ | ⟨t, l₁, rfl, rfl, -⟩)
    · exact .inl zero
    · exact .inr ⟨t, List.mem_cons_self, rfl⟩
  intro kpg v₁ root
  have onward : ∀ {α : Type} (m : Mio α) {next : α → Mio ℕ}, (∀ a v, Sat (next a) v anyStop fun kpg _ => kpg = 0 ∨
      ∃ t ∈ l, kpg = PGSIZE * t) → ∀ v, Sat (m >>= next) v anyStop fun kpg _ => kpg = 0 ∨ ∃ t ∈ l, kpg = PGSIZE * t :=
    fun m next rest v => Sat.bind (Sat.ofOk (Q := fun _ _ => True) fun _ _ _ => trivial) fun a s _ => rest a s
  refine onward _ (fun _ => onward _ fun _ => onward _ fun _ => onward _ fun _ => onward _ fun _ => onward _ fun _ => onward _ fun _ =>
    onward _ fun _ => onward _ fun _ _ => Sat.pure root) v₁

/-- The page table that `kvmmake` builds is one. -/
theorem kvmmake_taken (free : FreeList L v l) (aligned : L.etext % PGSIZE = 0) (enough : kvmCost L < l.length) :
    ∃ kt v' l', kvmmake L v = .ok (PGSIZE * kt, v') ∧ FreeList L v' l' ∧ KernelTaken L v' l' kt := by
  obtain ⟨e, text⟩ : ∃ e, L.etext = PGSIZE * e := Nat.dvd_of_mod_eq_zero aligned
  obtain ⟨tr, base⟩ : ∃ tr, L.trampoline = PGSIZE * tr := Nat.dvd_of_mod_eq_zero L.trampoline_aligned
  have made : Sat (kvmmake L) v (fun _ => False) fun kpg v' => ∃ t l', kpg = PGSIZE * t ∧ FreeList L v' l' ∧
      (∀ n, TablePage v'.mem (PGSIZE * t) n → n ∉ l') ∧
      sv39 v'.mem TRAMPOLINEPG 2 (PGSIZE * t) = some (0, L.trampoline / PGSIZE * 1024 + 11) := by
    refine kvmmake_ranges free text base enough ?_
    intro v₁ t S l₁ table values room sub
    have blank : ∀ n < NPROC, Radix.value pteCoding v₁.mem 2 t (stackPage (0 + n)) = none := by
      intro n few
      have high := stackPage_high few
      simp only [TRAMPOLINEPG, NPROC] at high
      obtain ⟨page, listed⟩ := List.exists_mem_of_ne_nil l (by rintro rfl; simp at enough)
      obtain ⟨above, below, under⟩ := text_pages text base (free.managed page listed)
      rw [Nat.zero_add, values _ (by omega), kernelEntry_eq, if_neg (by omega), if_neg (by omega), if_neg (by omega),
        if_neg (by omega), if_neg (by omega), if_neg (by omega)]
    refine Sat.bind (table.procMapstacks (by omega) blank room) ?_
    rintro _ v₂ ⟨frames, inner, l₂, -, table₂, -, -, others⟩
    refine Sat.pure ⟨t, l₂, rfl, table₂.toFreeList, fun n page listed => ?_, ?_⟩
    · exact table₂.apart n listed (tablePage_mem table₂.tree page)
    · have value := others TRAMPOLINEPG (by decide) fun i few same => by
        have high := (stackPage_high (i := i) few).2
        rw [Nat.zero_add] at same
        omega
      rw [sv39_value table₂.tree, value, values _ (by decide), kernelEntry, if_pos rfl, base, page_number]
      rfl
  obtain ⟨kpg, v', returned, t, l', rfl, free', taken, entry⟩ := made.returns
  refine ⟨t, v', l', returned, free', ?_, taken, entry⟩
  rcases (kvmmake_root free).ok returned with zero | ⟨t', listed, same⟩
  · have nothing : t = 0 := by
      simp only [PGSIZE] at zero
      omega
    rw [nothing]
    decide
  · rw [PGSIZE_inj same]
    exact Nat.lt_trans (free.managed t' listed).lt (by decide)

end Resuming

section Sample

/-! ### A machine whose kernel has a page table -/

/-- The first page of the kernel's page table. -/
def TABLEPG : ℕ := FIRSTPG + 30

/-- 30 free pages, and above them a page table that maps the trampoline. -/
def pagedVm : Vm :=
  (((bootVm 30).store (PGSIZE * TABLEPG + 8 * 255) ((TABLEPG + 1) * 1024 + 1)).store
    (PGSIZE * (TABLEPG + 1) + 8 * 511) ((TABLEPG + 2) * 1024 + 1)).store
    (PGSIZE * (TABLEPG + 2) + 8 * 511) (smallLayout.trampoline / PGSIZE * 1024 + 11)

def pagedKernel : Kernel := { bootKernel 30 with vm := pagedVm }

theorem pagedKernel_booted : Booted smallLayout pagedKernel (List.range' FIRSTPG 30) where
  procs := fun _ => rfl
  files := fun _ => rfl
  links := by
    have keeps : Keeps (bootVm 30) pagedKernel.vm (· < TABLEPG) :=
      (((keeps_store (n := TABLEPG) _ (k := 255) (by decide) _).mono fun _ low => Nat.ne_of_lt low).trans
        ((keeps_store (n := TABLEPG + 1) _ (k := 511) (by decide) _).mono fun _ low => by omega)).trans
        ((keeps_store (n := TABLEPG + 2) _ (k := 511) (by decide) _).mono fun _ low => by omega)
    refine (bootVm_links 30 30 0 rfl).congr fun n member => ?_
    obtain ⟨-, high⟩ := List.mem_range'_1.mp member
    exact keeps.at (by unfold TABLEPG; omega) (k := 0) (by decide)
  nodup := List.nodup_range'
  managed := bootVm_managed (by decide)

theorem mem_store_page (v : Vm) {n m i j : ℕ} (small : i < 512) (small' : j < 512) (x : ℕ) :
    (v.store (PGSIZE * n + 8 * i) x).mem (512 * m + j) = if m = n ∧ j = i then x else v.mem (512 * m + j) := by
  have word : (PGSIZE * n + 8 * i) / 8 = 512 * n + i := by
    simp only [PGSIZE]
    omega
  unfold Vm.store
  rw [word]
  exact (Function.update_apply ..).trans (if_congr (by omega) rfl rfl)

theorem pagedVm_words (n i : ℕ) (high : TABLEPG ≤ n) (small : i < 512) : pagedVm.mem (512 * n + i) =
    if n = TABLEPG + 2 ∧ i = 511 then smallLayout.trampoline / PGSIZE * 1024 + 11
    else if n = TABLEPG + 1 ∧ i = 511 then (TABLEPG + 2) * 1024 + 1
    else if n = TABLEPG ∧ i = 255 then (TABLEPG + 1) * 1024 + 1 else 0 := by
  have blank : (bootVm 30).mem (512 * n + i) = 0 := if_neg (by unfold TABLEPG at high; omega)
  rw [pagedVm, mem_store_page _ (by decide) small, mem_store_page _ (by decide) small, mem_store_page _ (by decide) small,
    blank]

theorem pagedKernel_taken : KernelTaken smallLayout pagedKernel.vm (List.range' FIRSTPG 30) TABLEPG where
  small := by decide
  taken := by
    intro n page listed
    obtain ⟨-, high⟩ := List.mem_range'_1.mp listed
    have root := pagedVm_words TABLEPG
    have middle := pagedVm_words (TABLEPG + 1)
    rw [TablePage, page_words, page_number, show pagedKernel.vm = pagedVm from rfl] at page
    rcases page with rfl | ⟨i, small, valid, rest⟩
    · exact absurd high (by decide)
    rw [root i (le_refl _) small, if_neg (by omega), if_neg (by omega)] at valid rest
    by_cases slot : i = 255
    swap
    · exact valid (by rw [if_neg fun both => slot both.2]; rfl)
    rw [if_pos ⟨rfl, slot⟩, show PTE2PA ((TABLEPG + 1) * 1024 + 1) = PGSIZE * (TABLEPG + 1) by decide, page_words,
      page_number] at rest
    rcases rest with rfl | ⟨j, small', valid', rfl⟩
    · exact absurd high (by decide)
    rw [middle j (by omega) small', if_neg (by omega)] at valid' high
    by_cases slot' : j = 511
    · rw [if_pos ⟨rfl, slot'⟩] at high
      exact absurd high (by decide)
    · rw [if_neg fun both => slot' both.2, if_neg (by omega)] at valid'
      exact valid' rfl
  entry := by decide +kernel

/-- Instructions of four bytes in a row at `pa`. -/
def lineUp (pa : ℕ) (is : List (Instr Csr)) (a : ℕ) : Option (Instr Csr × ℕ) :=
  if pa ≤ a ∧ (a - pa) % 4 = 0 then is[(a - pa) / 4]?.map (·, 4) else none

theorem inPlace_lineUp (before is after : List (Instr Csr)) {pa stop i : ℕ} (at_ : i = pa + 4 * before.length)
    (fits : i + 4 * is.length ≤ stop) : InPlace (lineUp pa (before ++ (is ++ after))) stop i is := by
  induction is generalizing i before with
  | nil => trivial
  | cons head is ih =>
    rw [List.length_cons] at fits
    refine ⟨by omega, 4, ?_, ?_⟩
    · have index : (i - pa) / 4 = before.length := by omega
      rw [lineUp, if_pos (by omega), index, List.getElem?_append_right (le_refl _), Nat.sub_self]
      rfl
    · have later := ih (before ++ [head]) (i := i + 4) (by simp; omega) (by omega)
      rwa [List.append_assoc] at later

/-- The trampoline page: `uservec` and behind it `userret`. -/
def trampolineCode : ℕ → Option (Instr Csr × ℕ) :=
  lineUp smallLayout.trampoline ((uservec ++ [.jr .t0]) ++ (userret ++ [.sret]))

def sampleText : Text smallLayout trampolineCode where
  uservec := 0
  userret := 4 * (HaloOS.uservec ++ [Instr.jr Reg.t0]).length
  usertrap := KERNELBASE + 64
  entry := by
    have placed : InPlace (lineUp smallLayout.trampoline ([] ++ ((HaloOS.uservec ++ [.jr .t0]) ++ (HaloOS.userret ++ [.sret]))))
        (smallLayout.trampoline + PGSIZE) _ _ := inPlace_lineUp _ _ _ rfl (by decide)
    exact placed
  exit := by
    have placed : InPlace (lineUp smallLayout.trampoline ((HaloOS.uservec ++ [.jr .t0]) ++ ((HaloOS.userret ++ [.sret]) ++ [])))
        (smallLayout.trampoline + PGSIZE) _ _ := inPlace_lineUp _ _ _ rfl (by decide)
    rwa [List.append_nil] at placed

/-- Process 0 in user mode on hart 1. -/
def sampleCpu (k : Kernel) (reg : Reg → ℕ) : Cpu Csr Vm where
  reg := reg
  csr
    | .satp => MAKE_SATP (k.procs 0).pagetable
    | .sscratch => TRAPFRAME
    | .stvec => TRAMPOLINE + sampleText.uservec
    | .mode => USER
    | _ => 0
  mem := k.vm

/-- The kernel's words as `usertrapret` leaves them. -/
def kernelFrame (i : ℕ) : ℕ :=
  match i with
  | 0 => MAKE_SATP (PGSIZE * TABLEPG)
  | 1 => KSTACK 0 + PGSIZE
  | 2 => sampleText.usertrap
  | 4 => 1
  | _ => i

/-- The words that process 0 needs on its way into the kernel. -/
def KernelWords (k : Kernel) : Prop := ∀ i ∈ [0, 1, 2, 4], k.vm.load ((k.procs 0).trapframe + 8 * i) = kernelFrame i

instance (k : Kernel) : Decidable (KernelWords k) :=
  inferInstanceAs (Decidable (∀ i ∈ [0, 1, 2, 4], k.vm.load ((k.procs 0).trapframe + 8 * i) = kernelFrame i))

/-- Registers that ask for a system call. -/
def waiting (num : ℕ) (r : Reg) : ℕ := if r = .a7 then num else 14

theorem Does.unique {d : Deed} (step : Does L k d k₁) (ran : d.run L k = .ok ((), k')) : k₁ = k' := by
  simpa [step.1] using ran

theorem sampleCpu_inUser (reg : Reg → ℕ) (words : KernelWords k) :
    InUser sampleText TABLEPG 1 k 0 (sampleCpu k reg) where
  mem := rfl
  satp := rfl
  scratch := rfl
  vector := rfl
  mode := rfl
  table := words 0 (by decide)
  stack := words 1 (by decide)
  handler := words 2 (by decide)
  hart := words 4 (by decide)

/-- After the given deeds process 0 traps with `num` in `a7`. -/
def caught (deeds : List Deed) (num : ℕ) (next : Kio Unit) : Kio Unit := do
  Deed.userinit.run smallLayout
  doAll smallLayout (deeds ++ [.trap 0 kernelFrame])
  let k ← gets id
  stopIf (¬ ((k.procs 0).state.Ready ∧ KernelWords k ∧ userAt k.vm (k.procs 0).pagetable 4 = some 0x13)) .fault
  (Deed.trap 0 (frameWords (fun i => k.vm.load ((k.procs 0).trapframe + 8 * i)) 40 (waiting num))).run smallLayout
  next

theorem caught_ok {deeds : List Deed} {num : ℕ} {next : Kio Unit} {u : Unit}
    (returned : caught deeds num next pagedKernel = .ok (u, k')) :
    ∃ k past, Trace (Does smallLayout) pagedKernel past k ∧ (k.procs 0).state.Ready ∧ KernelWords k ∧
      userAt k.vm (k.procs 0).pagetable 4 = some 0x13 ∧ ∃ k₁,
      (Deed.trap 0 (frameWords (fun i => k.vm.load ((k.procs 0).trapframe + 8 * i)) 40 (waiting num))).run smallLayout k =
        .ok ((), k₁) ∧ next k₁ = .ok ((), k') := by
  obtain ⟨_, k₀, start, rest⟩ := bind_ok.mp returned
  obtain ⟨_, k, past, rest⟩ := bind_ok.mp rest
  obtain ⟨_, _, read, rest⟩ := bind_ok.mp rest
  obtain ⟨rfl, rfl⟩ := gets_ok.mp read
  obtain ⟨_, _, checked, rest⟩ := bind_ok.mp rest
  obtain ⟨facts, rfl⟩ := stopIf_ok.mp checked
  obtain ⟨state, words, byte⟩ := not_not.mp facts
  obtain ⟨_, k₁, trapped, later⟩ := bind_ok.mp rest
  exact ⟨k, _, started pagedKernel_booted start past, state, words, byte, k₁, trapped, later⟩

end Sample

section Resuming

variable {code : ℕ → Option (Instr Csr × ℕ)} {kt id pc num : ℕ} {text : Text L code} {c : Cpu Csr Vm}
  {reg : Reg → ℕ} {view : ℕ → Option Byte} {l₀ : List ℕ} {past : List Deed}

/-- In every state of a run the books are kept and the kernel's page table is as it was. -/
theorem Booted.paged (boot : Booted L k₀ l₀) (pages : KernelTaken L k₀.vm l₀ kt) (run : Trace (Does L) k₀ past k) :
    ∃ own l, Books L k own l ∧ KernelTable L k₀.vm.mem own kt k.vm := by
  obtain ⟨own, l, books, kept⟩ := boot.secured run
  exact ⟨own, l, books, pages.small, fun n page => kept n (pages.taken n page), pages.entry⟩

/-- A process that is frozen resumes after whatever the others do. -/
theorem Frozen.resumes {later : List Deed} {c₂ : Cpu Csr Vm} (frozen : Frozen k₁ p pc reg view) (boot : Booted L k₀ l₀)
    (pages : KernelTaken L k₀.vm l₀ kt) (run : Trace (Does L) k₀ past k₁) (ready : (k₁.procs p).state.Ready)
    (on : Trace (fun k d k' => Does L k d k' ∧ d.actor ≠ some p) k₁ later k₂) (inside : InKernel kt id k₂ c₂) :
    ∃ c₃, TrapOut text kt id k₂ p c₂ pc reg view c₃ := by
  obtain ⟨own₁, l₁, books₁⟩ := boot.does run
  obtain ⟨own', l', books', alone⟩ := Alone.run books₁ ready on
  obtain ⟨own₂, l₂, books₂, kernel⟩ := boot.paged pages (run.append (on.mono fun _ _ _ step => step.1))
  exact trapOut books₂ alone.ready kernel inside (frozen.undisturbed (alone.undisturbed books₁ books' ready))

theorem does_ecall (ready : (k.procs p).state.Ready) (returned : usertrapEcall L p k = .ok ((), k'))
    (heap : k.vm.load ((k.procs p).trapframe + A7) % UINT ≠ SYS_SBRK) : Does L k (.ecall p) k' :=
  ⟨bind_ok.mpr ⟨_, k, bind_ok.mpr ⟨_, k, rfl, bind_ok.mpr ⟨(), k, stopIf_ok.mpr ⟨not_not.mpr ready, rfl⟩, rfl⟩⟩, returned⟩, heap⟩

/-- A frozen process after its system call: the program counter is behind the `ecall`, and of the registers `a0` alone
has changed. -/
theorem Frozen.answered (frozen : Frozen k p pc reg view) (answered : Answered num p k k') :
    Frozen k' p ((pc + 4) % WORD) (Function.update reg .a0 (k'.vm.load ((k'.procs p).trapframe + A0)))
      (userAt k'.vm (k'.procs p).pagetable) ∧
      ∀ a < 2 ^ 39, ¬ InBuffer (buffer num (reg .a0) (reg .a1) (reg .a2)) a →
        userAt k'.vm (k'.procs p).pagetable a = view a := by
  obtain ⟨⟨openfs, record⟩, epc, words, -, memory⟩ := answered
  have table : (k'.procs p).trapframe = (k.procs p).trapframe := by rw [record]
  have args : arg k p 0 = reg .a0 ∧ arg k p 1 = reg .a1 ∧ arg k p 2 = reg .a2 :=
    ⟨frozen.regs .a0, frozen.regs .a1, frozen.regs .a2⟩
  refine ⟨⟨by rw [table, epc, frozen.epc], fun r => ?_, fun _ _ => rfl⟩, fun a small outside => ?_⟩
  · by_cases same : r = .a0
    · rw [same, Function.update_self]
      rfl
    · rw [Function.update_of_ne same, ← frozen.regs r, table]
      have differ : place r ≠ A0 := by cases r <;> first | exact absurd rfl same | decide
      obtain ⟨high, small, i, word⟩ := place_range r
      rw [word] at high small differ ⊢
      exact words i (by omega) (by unfold EPC; omega) differ
  · rw [memory a small (by rwa [args.1, args.2.1, args.2.2]), frozen.memory a small]

/-- The copy of a frozen process is frozen with 0 in `a0`. -/
theorem Frozen.clone {np : Fin NPROC} (frozen : Frozen k p pc reg view) (clone : Clone k p k' np) :
    Frozen k' np pc (Function.update reg .a0 0) view := by
  refine ⟨(clone.frame 3 (by decide) (by decide)).trans frozen.epc, fun r => ?_,
    fun a small => (clone.memory a small).trans (frozen.memory a small)⟩
  by_cases same : r = .a0
  · rw [same, Function.update_self]
    exact clone.a0
  · rw [Function.update_of_ne same, ← frozen.regs r]
    have differ : place r ≠ A0 := by cases r <;> first | exact absurd rfl same | decide
    obtain ⟨-, small, i, word⟩ := place_range r
    rw [word] at small differ ⊢
    exact clone.frame i (by omega) differ

theorem setTrapword_vm (p : Fin NPROC) (off x : ℕ) (k : Kernel) : Sat (setTrapword p off x) k anyStop fun _ k' =>
    k' = { k with vm := k.vm.store ((k.procs p).trapframe + off) x } := by
  refine Sat.bind (Sat.gets (Q := fun a s => k.procs p = a ∧ k = s) ⟨rfl, rfl⟩) ?_
  rintro _ _ ⟨rfl, rfl⟩
  exact Sat.zoom (Sat.update rfl)

/-- A store to a process's own trapframe concerns no other process. -/
theorem setTrapword_undisturbed {np : Fin NPROC} (books : Books L k own l) (live : (k.procs p).state ≠ .unused)
    (ready : (k.procs np).state.Ready) (other : np ≠ p) {i : ℕ} (small : i < 512) (x : ℕ) :
    Sat (setTrapword p (8 * i) x) k anyStop fun _ k' => Undisturbed np k k' := by
  refine ((Respects.refl books live).setTrapword small x).mono ?_
  rintro _ k' ⟨own', l', books', -, records, spares⟩
  obtain ⟨parent, record⟩ := records np other ready
  have alone : Alone np k own k' own' := ⟨⟨_, parent, record, ready⟩, fun s root =>
    spares np s (fun same => other (Fin.ext same)) (standing_of ready) (.inl root)⟩
  exact alone.undisturbed books books' ready

/-- What the system call `fork` leaves behind: the child is frozen behind the parent's `ecall`. -/
structure Forked (k k' : Kernel) (p np : Fin NPROC) (pc : ℕ) (reg : Reg → ℕ) (view : ℕ → Option Byte) : Prop where
  unused : (k.procs np).state = .unused
  ready : (k'.procs np).state.Ready
  parent : (k'.procs np).parent = some p
  pid : (k'.procs np).pid = k.nextPid
  result : k'.vm.load ((k'.procs p).trapframe + A0) = k.nextPid % WORD
  frozen : Frozen k' np ((pc + 4) % WORD) (Function.update reg .a0 0) view

theorem usertrapEcall_fork (books : Books L k own l) (counted : Counted k fun _ => 0) (ready : (k.procs p).state.Ready)
    (number : k.vm.load ((k.procs p).trapframe + A7) % UINT = SYS_FORK) (frozen : Frozen k p pc reg view) :
    Sat (usertrapEcall L p) k anyStop fun _ k' => (k'.procs p).state.Ready →
      k'.vm.load ((k'.procs p).trapframe + A0) = WORD - 1 ∨ ∃ np, Forked k k' p np pc reg view := by
  have start : Serves L (· = 3) (fun _ => False) p k k := .refl books
  refine Sat.bind (Sat.gets (Q := fun a s => k.procs p = a ∧ k = s) ⟨rfl, rfl⟩) ?_
  rintro _ _ ⟨rfl, rfl⟩
  refine Sat.ite (fun _ => ?_) fun _ => ?_
  · exact Sat.bind (exit_zombie _ k) fun r k₁ zombie => Sat.pure fun back => absurd zombie back.ne_zombie
  refine Sat.bind (Sat.gets (Q := fun a s => pc = a ∧ k = s) ⟨frozen.epc.symm, rfl⟩) ?_
  rintro _ _ ⟨rfl, rfl⟩
  refine Sat.bind ((start.setTrapword (i := 3) ready (by decide) rfl _).andRun) ?_
  rintro _ k₁ ⟨returned, ⟨⟨own₁, l₁, books₁⟩, heeds₁⟩, -⟩
  have stored := (setTrapword_vm p EPC _ k).ok returned
  have frozen₁ : Frozen k₁ p ((pc + 4) % WORD) reg view := by
    have same : k₁.procs = k.procs := by rw [stored]
    refine ⟨?_, fun r => ?_, fun a small => ?_⟩
    · rw [same, stored]
      exact Function.update_self ..
    · obtain ⟨high, small, i, word⟩ := place_range r
      rw [← frozen.regs r, same]
      rw [word] at high small ⊢
      exact heeds₁.frame i (by omega) (by omega)
    · rw [← frozen.memory a small, same]
      exact heeds₁.memory a small not_false
  have number₁ : k₁.vm.load ((k₁.procs p).trapframe + A7) % UINT = SYS_FORK := by
    rw [show A7 = place .a7 from rfl, frozen₁.regs, ← frozen.regs .a7]
    exact number
  have ready₁ : (k₁.procs p).state.Ready := by
    rw [stored]
    exact ready
  have counted₁ : Counted k₁ fun _ => 0 := by
    rw [stored]
    exact counted.sameSlots (sameSlots_of_eq rfl rfl)
  refine Sat.bind (Sat.gets (Q := fun a s => a % UINT = SYS_FORK ∧ k₁ = s) ⟨number₁, rfl⟩) ?_
  rintro a7 _ ⟨number', rfl⟩
  rw [number', show syscalls L p SYS_FORK = some (Syscall.sysFork L p) from rfl]
  refine Sat.bind (fork_copies books₁ counted₁ ready₁).andRun ?_
  rintro r k₂ ⟨forked, result⟩
  obtain ⟨own₂, l₂, books₂, -, -⟩ := (fork_spares books₁ ready₁.ne_unused).ok forked
  have record := (fork_others books₁).ok forked p ready₁.ne_unused
  have ready₂ : (k₂.procs p).state.Ready := by rwa [record]
  refine Sat.onlyIf (fun _ => ?_) fun differ => absurd (by decide) differ
  refine Sat.ofOk fun _ k' written _ => ?_
  have answer := (setTrapword_vm p A0 _ k₂).ok written
  have a0 : k'.vm.load ((k'.procs p).trapframe + A0) = (r % WORD).toNat := by
    rw [answer]
    exact Function.update_self ..
  rcases result with rfl | ⟨np, unused, rfl, clone⟩
  · exact .inl a0
  have other : np ≠ p := by
    rintro rfl
    exact ready₁.ne_unused unused
  have readyC : (k₂.procs np).state.Ready := .inr (.inl clone.state)
  have undisturbed := (setTrapword_undisturbed books₂ ready₂.ne_unused readyC other (i := 14) (by decide) _).ok written
  have same : k'.procs = k₂.procs := by rw [answer]
  refine .inr ⟨np, ?_, by rwa [same], by rw [same, clone.parent], ?_, ?_, (frozen₁.clone clone).undisturbed undisturbed⟩
  · rw [← unused, stored]
  · rw [same, clone.pid, stored]
  · rw [a0, stored]
    exact Int.toNat_natCast _

end Resuming

end HaloOS
