import HaloOS.Lib.Asm
import HaloOS.Kernel.Forking

/-! The way into the kernel and back: `trampoline.S` run instruction by instruction through the page tables of the
process and of the kernel, and `usertrapret`. -/

namespace HaloOS

open Lib

variable {L : Layout} {own own' : ℕ → Owner} {l : List ℕ} {k k' k₀ : Kernel} {p : Fin NPROC} {v v' v₀ : Vm}
  {s t f u g off flags : ℕ} {S : ℕ → Prop}

section Hardware

/-! ### The hart -/

/-- The registers of supervisor mode that the code names, and the mode itself. -/
inductive Csr where
  | satp | sscratch | sepc | stvec | sstatus | scause | mode
  deriving DecidableEq

def USER : ℕ := 0
def SUPERVISOR : ℕ := 1

def SSTATUS_SPP : ℕ := 2 ^ 8
def SSTATUS_SPIE : ℕ := 2 ^ 5
def SSTATUS_SIE : ℕ := 2 ^ 1
def SATP_SV39 : ℕ := 8 * 2 ^ 60

def MAKE_SATP (pagetable : ℕ) : ℕ := SATP_SV39 ||| pagetable / 2 ^ 12

/-- `x & ~mask`. -/
def andNot (x mask : ℕ) : ℕ := x ^^^ (x &&& mask)

inductive Access where
  | fetch | load | store

def Access.permission : Access → ℕ
  | .fetch => PTE_X
  | .load => PTE_R
  | .store => PTE_W

/-- Address translation. The upper half of the addresses and leaves of the upper levels, which this kernel does not
use, are left out. -/
def mmu (access : Access) (csr : Csr → ℕ) (v : Vm) (va : ℕ) : Option ℕ :=
  if csr .satp / 2 ^ 60 = 0 then some va
  else if csr .satp / 2 ^ 60 = 8 ∧ va < 2 ^ 38 then
    match sv39 v.mem (va / PGSIZE) 2 (PGSIZE * (csr .satp % 2 ^ 44)) with
    | some (0, pte) =>
      if (pte &&& PTE_U ≠ 0 ↔ csr .mode = USER) ∧ pte &&& access.permission ≠ 0 then
        some (PTE2PA pte + va % PGSIZE)
      else none
    | _ => none
  else none

/-- `sret`: to the mode in `SPP`, with the interrupt bit that `SPIE` holds. -/
def sret (csr : Csr → ℕ) : ℕ × (Csr → ℕ) :=
  let status := csr .sstatus
  let mode := if status &&& SSTATUS_SPP = 0 then USER else SUPERVISOR
  let back := if status &&& SSTATUS_SPIE = 0 then 0 else SSTATUS_SIE
  let kept := andNot status (SSTATUS_SPP ||| SSTATUS_SIE)
  (csr .sepc, Function.update (Function.update csr .mode mode) .sstatus (kept ||| SSTATUS_SPIE ||| back))

theorem sret_other (csr : Csr → ℕ) {r : Csr} (one : r ≠ .mode) (two : r ≠ .sstatus) : (sret csr).2 r = csr r :=
  (Function.update_of_ne two _ _).trans (Function.update_of_ne one _ _)

theorem sret_mode (csr : Csr → ℕ) :
    (sret csr).2 .mode = if csr .sstatus &&& SSTATUS_SPP = 0 then USER else SUPERVISOR := rfl

theorem sret_sstatus (csr : Csr → ℕ) : (sret csr).2 .sstatus = (andNot (csr .sstatus) (SSTATUS_SPP ||| SSTATUS_SIE) |||
    SSTATUS_SPIE ||| if csr .sstatus &&& SSTATUS_SPIE = 0 then 0 else SSTATUS_SIE) := rfl

/-- A trap from user code. -/
def trapEntry (cause pc : ℕ) (c : Cpu Csr Vm) : ℕ × Cpu Csr Vm :=
  let status := c.csr .sstatus
  let held := if status &&& SSTATUS_SIE = 0 then 0 else SSTATUS_SPIE
  let kept := andNot status (SSTATUS_SPP ||| SSTATUS_SPIE ||| SSTATUS_SIE)
  let csr := Function.update (Function.update c.csr .sepc pc) .scause cause
  (c.csr .stvec, { c with csr := Function.update (Function.update csr .mode SUPERVISOR) .sstatus (kept ||| held) })

/-- The bus of a hart. `code` is the code in physical memory, with the length of every instruction. -/
def bus (code : ℕ → Option (Instr Csr × ℕ)) : Bus Csr Vm where
  load csr v va := if va % 8 = 0 then (mmu .load csr v va).map fun pa => v.load pa else none
  store csr v va x := if va % 8 = 0 then (mmu .store csr v va).map fun pa => v.store pa x else none
  fetch csr v va := (mmu .fetch csr v va).bind code
  sret := sret

end Hardware

section Trampoline

/-! ### `trampoline.S` -/

/-- The registers that are saved and loaded in a row, with their places in the trapframe. -/
def saved : List (Reg × ℕ) :=
  [(.ra, 40), (.sp, 48), (.gp, 56), (.tp, 64), (.t0, 72), (.t1, 80), (.t2, 88), (.s0, 96), (.s1, 104),
    (.a1, 120), (.a2, 128), (.a3, 136), (.a4, 144), (.a5, 152), (.a6, 160), (.a7, 168), (.s2, 176), (.s3, 184),
    (.s4, 192), (.s5, 200), (.s6, 208), (.s7, 216), (.s8, 224), (.s9, 232), (.s10, 240), (.s11, 248),
    (.t3, 256), (.t4, 264), (.t5, 272), (.t6, 280)]

/-- The place of a register in the trapframe. -/
def place (r : Reg) : ℕ := ((saved.find? fun slot => slot.1 = r).map Prod.snd).getD 112

def uservec : List (Instr Csr) :=
  [.csrrw .a0 .sscratch .a0] ++ saved.map (fun slot => .sd slot.1 slot.2 .a0) ++
    [.csrr .t0 .sscratch, .sd .t0 112 .a0] ++
    [.ld .sp 8 .a0, .ld .tp 32 .a0, .ld .t0 16 .a0, .ld .t1 0 .a0, .csrw .satp .t1, .fence]

def userret : List (Instr Csr) :=
  [.csrw .satp .a1, .fence, .ld .t0 112 .a0, .csrw .sscratch .t0] ++
    saved.map (fun slot => .ld slot.1 slot.2 .a0) ++ [.csrrw .a0 .sscratch .a0]

/-- Instructions one after the other in physical memory, below `stop`. -/
def InPlace (code : ℕ → Option (Instr Csr × ℕ)) (stop : ℕ) : ℕ → List (Instr Csr) → Prop
  | _, [] => True
  | pa, i :: is => pa < stop ∧ ∃ n, code pa = some (i, n) ∧ InPlace code stop (pa + n) is

/-- Where the routines are: offsets in the trampoline page, and the address of `usertrap`. `uservec` ends with
`jr t0`, `userret` with `sret`. -/
structure Text (L : Layout) (code : ℕ → Option (Instr Csr × ℕ)) where
  uservec : ℕ
  userret : ℕ
  usertrap : ℕ
  entry : InPlace code (L.trampoline + PGSIZE) (L.trampoline + uservec) (HaloOS.uservec ++ [.jr .t0])
  exit : InPlace code (L.trampoline + PGSIZE) (L.trampoline + userret) (HaloOS.userret ++ [.sret])

variable {code : ℕ → Option (Instr Csr × ℕ)}

/-- `usertrapret`, up to the jump to `userret`. -/
def usertrapret (text : Text L code) (p : Fin NPROC) (proc : Proc) (c : Cpu Csr Vm) : ℕ × Cpu Csr Vm :=
  let tf := proc.trapframe
  let mem := (((c.mem.store tf (c.csr .satp)).store (tf + 8) (KSTACK p + PGSIZE)).store (tf + 16) text.usertrap).store
    (tf + 32) (c.reg .tp)
  let status := andNot (andNot (c.csr .sstatus) SSTATUS_SIE) SSTATUS_SPP ||| SSTATUS_SPIE
  let csr := Function.update (Function.update c.csr .stvec (TRAMPOLINE + text.uservec)) .sstatus status
  (TRAMPOLINE + text.userret,
    { reg := Function.update (Function.update c.reg .a0 TRAPFRAME) .a1 (MAKE_SATP proc.pagetable)
      csr := Function.update csr .sepc (mem.load (tf + EPC))
      mem })

end Trampoline

section Translation

/-! ### What supervisor code gets at -/

theorem MAKE_SATP_mode (small : t < 2 ^ 44) :
    MAKE_SATP (PGSIZE * t) / 2 ^ 60 = 8 ∧ MAKE_SATP (PGSIZE * t) % 2 ^ 44 = t := by
  have page : PGSIZE * t / 2 ^ 12 = t := page_number t
  have sum : MAKE_SATP (PGSIZE * t) = 2 ^ 60 * 8 + t := by
    rw [Nat.two_pow_add_eq_or_of_lt (Nat.lt_trans small (by decide)), MAKE_SATP, page]
    rfl
  rw [sum]
  omega

/-- Supervisor code reaches a page through an entry without `PTE_U`. -/
theorem mmu_entry {csr : Csr → ℕ} (access : Access) (satp : csr .satp = MAKE_SATP (PGSIZE * t)) (small : t < 2 ^ 44)
    (mode : csr .mode = SUPERVISOR) (entry : sv39 v.mem u 2 (PGSIZE * t) = some (0, g * 1024 + flags))
    (low : u < 2 ^ 26) (frame : g < 557056) (closed : flags &&& PTE_U = 0) (flag : flags < 1024)
    (allowed : flags &&& access.permission ≠ 0) (inside : off < PGSIZE) :
    mmu access csr v (PGSIZE * u + off) = some (PGSIZE * g + off) := by
  obtain ⟨paged, root⟩ := MAKE_SATP_mode small
  have page : (PGSIZE * u + off) / PGSIZE = u := by
    simp only [PGSIZE] at *
    omega
  have rest : (PGSIZE * u + off) % PGSIZE = off := by
    simp only [PGSIZE] at *
    omega
  have canonical : PGSIZE * u + off < 2 ^ 38 := by
    simp only [PGSIZE] at *
    omega
  have user : (g * 1024 + flags) &&& PTE_U = 0 := by rwa [entry_and g (by decide)]
  have bits : (g * 1024 + flags) &&& access.permission ≠ 0 := by
    rwa [entry_and g (by cases access <;> decide)]
  unfold mmu
  rw [satp, paged, root, if_neg (by decide), if_pos ⟨rfl, canonical⟩, page, entry]
  refine Eq.trans (if_pos ⟨by simp [user, mode, SUPERVISOR, USER], bits⟩) ?_
  rw [entry_page frame flag, rest]

theorem Layout.trampoline_page (L : Layout) : PGSIZE * (L.trampoline / PGSIZE) = L.trampoline ∧
    L.trampoline / PGSIZE < 557056 := by
  have aligned := L.trampoline_aligned
  have text := L.trampoline_text
  have above := L.text_end
  have top := L.end_le
  simp only [PHYSTOP_eq, PGSIZE] at *
  omega

variable {code : ℕ → Option (Instr Csr × ℕ)}

/-- The trampoline page is where the code expects it. -/
def Sees (L : Layout) (csr : Csr → ℕ) (v : Vm) : Prop :=
  ∀ off < PGSIZE, mmu .fetch csr v (TRAMPOLINE + off) = some (L.trampoline + off)

theorem sees_entry {csr : Csr → ℕ} (satp : csr .satp = MAKE_SATP (PGSIZE * t)) (small : t < 2 ^ 44)
    (mode : csr .mode = SUPERVISOR)
    (entry : sv39 v.mem TRAMPOLINEPG 2 (PGSIZE * t) = some (0, L.trampoline / PGSIZE * 1024 + 11)) : Sees L csr v := by
  intro off inside
  obtain ⟨page, frame⟩ := L.trampoline_page
  rw [← page]
  exact mmu_entry .fetch satp small mode entry (by decide) frame (by decide) (by decide) (by decide) inside

/-- Code that is in place in the trampoline page stands at its virtual address, with the instruction after it. -/
theorem InPlace.stands {is : List (Instr Csr)} {last : Instr Csr} {off : ℕ}
    (placed : InPlace code (L.trampoline + PGSIZE) (L.trampoline + off) (is ++ [last])) :
    ∃ lines : List (Instr Csr × ℕ), lines.map Prod.fst = is ∧ Stands (bus code) (Sees L) (TRAMPOLINE + off) lines ∧
      ∃ n, ∀ csr v, Sees L csr v → (bus code).fetch csr v (TRAMPOLINE + off + span lines) = some (last, n) := by
  have fetch : ∀ {off : ℕ} {found : Instr Csr × ℕ}, L.trampoline + off < L.trampoline + PGSIZE →
      code (L.trampoline + off) = some found → ∀ csr v, Sees L csr v →
      (bus code).fetch csr v (TRAMPOLINE + off) = some found := by
    intro off found inside here csr v sees
    change (mmu .fetch csr v (TRAMPOLINE + off)).bind code = some found
    rw [sees off (by omega), Option.bind_some, here]
  induction is generalizing off with
  | nil =>
    obtain ⟨inside, n, here, -⟩ := placed
    exact ⟨[], rfl, trivial, n, fetch inside here⟩
  | cons i is ih =>
    obtain ⟨inside, n, here, rest⟩ := placed
    rw [Nat.add_assoc] at rest
    obtain ⟨lines, same, stands, m, next⟩ := ih rest
    rw [← Nat.add_assoc] at stands
    refine ⟨(i, n) :: lines, by rw [List.map_cons, same], ⟨fetch inside here, stands⟩, m, fun csr v sees => ?_⟩
    rw [← next csr v sees, span_cons, Nat.add_assoc, Nat.add_assoc, Nat.add_assoc]

end Translation

section Passage

/-! ### Through the trampoline -/

variable {code : ℕ → Option (Instr Csr × ℕ)}

/-- A hart with the page table of the process in use, in supervisor mode, that has written at most to the trapframe
since memory was `v₀`. -/
structure Crossing (L : Layout) (own : ℕ → Owner) (l : List ℕ) (t f : ℕ) (S : ℕ → Prop) (v₀ : Vm) (csr : Csr → ℕ)
    (v : Vm) : Prop where
  satp : csr .satp = MAKE_SATP (PGSIZE * t)
  mode : csr .mode = SUPERVISOR
  space : Space L v own l t S (topLeaves L f)
  keeps : Keeps v₀ v (· ≠ f)
  freelist : v.freelist = v₀.freelist

theorem Space.top (space : Space L v own l t S (topLeaves L f)) :
    sv39 v.mem TRAMPOLINEPG 2 (PGSIZE * t) = some (0, L.trampoline / PGSIZE * 1024 + 11) ∧
      sv39 v.mem TRAPFRAMEPG 2 (PGSIZE * t) = some (0, f * 1024 + 7) := by
  have outside : ∀ u, TRAPFRAMEPG ≤ u → ¬ S u := fun u above inside => absurd (space.maps.bound u inside) (by omega)
  constructor
  · rw [space.sv39_other (by decide) (outside _ (by decide)), topLeaves_trampoline, if_neg (by omega)]
  · rw [space.sv39_other (by decide) (outside _ (le_refl _)), topLeaves_trapframe, if_neg (by omega)]

/-- A word of a page after a store to another or the same. -/
theorem load_store_page (v : Vm) {off off' : ℕ} (whole : 8 ∣ off) (whole' : 8 ∣ off') (x : ℕ) :
    (v.store (PGSIZE * f + off) x).load (PGSIZE * f + off') = if off' = off then x else v.load (PGSIZE * f + off') := by
  obtain ⟨i, rfl⟩ := whole
  obtain ⟨j, rfl⟩ := whole'
  have word : ∀ i, (PGSIZE * f + 8 * i) / 8 = 512 * f + i := by
    intro i
    simp only [PGSIZE]
    omega
  unfold Vm.load Vm.store
  simp only [word, Function.update_apply]
  exact if_congr (by omega) rfl rfl

variable (trap : own f = .trapframe p)

theorem Crossing.sees {csr : Csr → ℕ} (crossing : Crossing L own l t f S v₀ csr v) : Sees L csr v := by
  obtain ⟨q, root⟩ := crossing.space.tree.root
  have small := (crossing.space.pool.managed t (by simp [root])).lt
  exact sees_entry crossing.satp (by omega) crossing.mode crossing.space.top.1

include trap

/-- The trapframe is open to the trampoline. -/
theorem crossing_window : Window (bus code) (Crossing L own l t f S v₀) TRAPFRAME PGSIZE
    (fun v off => v.load (PGSIZE * f + off)) (fun v off x => v.store (PGSIZE * f + off) x) where
  low := by decide
  load := by
    intro csr v off crossing inside whole
    obtain ⟨q, root⟩ := crossing.space.tree.root
    have small := (crossing.space.pool.managed t (by simp [root])).lt
    have frame := (crossing.space.pool.managed f (by simp [trap])).lt
    have found := mmu_entry .load crossing.satp (by omega) crossing.mode crossing.space.top.2 (by decide) frame
      (by decide) (by decide) (by decide) inside
    have aligned : (TRAPFRAME + off) % 8 = 0 := by
      simp only [TRAPFRAME, TRAMPOLINE, MAXVA, PGSIZE]
      omega
    change (if (TRAPFRAME + off) % 8 = 0 then (mmu .load csr v (PGSIZE * TRAPFRAMEPG + off)).map _ else none) = _
    rw [if_pos aligned, found]
    rfl
  store := by
    intro csr v off x crossing inside whole
    obtain ⟨q, root⟩ := crossing.space.tree.root
    have small := (crossing.space.pool.managed t (by simp [root])).lt
    have frame := (crossing.space.pool.managed f (by simp [trap])).lt
    have found := mmu_entry .store crossing.satp (by omega) crossing.mode crossing.space.top.2 (by decide) frame
      (by decide) (by decide) (by decide) inside
    have aligned : (TRAPFRAME + off) % 8 = 0 := by
      simp only [TRAPFRAME, TRAMPOLINE, MAXVA, PGSIZE]
      omega
    change (if (TRAPFRAME + off) % 8 = 0 then (mmu .store csr v (PGSIZE * TRAPFRAMEPG + off)).map _ else none) = _
    rw [if_pos aligned, found]
    rfl
  keeps := by
    intro csr v off x crossing inside whole
    obtain ⟨i, rfl⟩ := whole
    have keeps := keeps_store (n := f) v (k := i) (by simp only [PGSIZE] at inside; omega) x
    have space := (crossing.space.poke (by simp [trap]) (by simp [trap]) (by simp [trap, Owner.under]) keeps rfl).1
    exact ⟨crossing.satp, crossing.mode, space, crossing.keeps.trans keeps, crossing.freelist⟩
  get_put := fun whole whole' => load_store_page _ whole whole' _

omit trap in
theorem saved_fits : ∀ slot ∈ saved, slot.2 < PGSIZE ∧ 8 ∣ slot.2 := by decide

omit trap in
theorem mem_saved {r : Reg} (other : r ≠ .a0) : (r, place r) ∈ saved := by
  cases r <;> first | exact absurd rfl other | decide

omit trap in
theorem place_cases {off : ℕ} (other : ∀ r, off ≠ place r) : off ∉ saved.map Prod.snd ∧ off ≠ 112 := by
  refine ⟨fun member => ?_, other .a0⟩
  obtain ⟨slot, listed, rfl⟩ := List.mem_map.mp member
  have named : ∀ slot ∈ saved, slot.2 = place slot.1 := by decide
  exact other slot.1 (named slot listed)

/-- The registers have been saved to the trapframe in page `f`. -/
structure Saves (f : ℕ) (reg : Reg → ℕ) (v v' : Vm) : Prop where
  regs : ∀ r, v'.load (PGSIZE * f + place r) = reg r
  other : ∀ off, 8 ∣ off → (∀ r, off ≠ place r) → v'.load (PGSIZE * f + off) = v.load (PGSIZE * f + off)
  keeps : Keeps v v' (· ≠ f)
  freelist : v'.freelist = v.freelist

/-- The first part of `uservec`: every register is saved. -/
theorem uservec_saves (code : ℕ → Option (Instr Csr × ℕ)) {c : Cpu Csr Vm} (crossing : Crossing L own l t f S c.mem c.csr c.mem)
    (scratch : c.csr .sscratch = TRAPFRAME) : ∃ c', Flows (bus code) (Crossing L own l t f S c.mem)
      ([.csrrw .a0 .sscratch .a0] ++ saved.map (fun slot => .sd slot.1 slot.2 .a0) ++
        [.csrr .t0 .sscratch, .sd .t0 112 .a0]) c c' ∧
      c'.csr = Function.update c.csr .sscratch (c.reg .a0) ∧ c'.reg .a0 = TRAPFRAME ∧ Saves f c.reg c.mem c'.mem ∧
      Crossing L own l t f S c.mem c'.csr c'.mem := by
  have window : Window (bus code) (Crossing L own l t f S c.mem) TRAPFRAME PGSIZE
    (fun v off => v.load (PGSIZE * f + off)) (fun v off x => v.store (PGSIZE * f + off) x) := crossing_window trap
  obtain ⟨c₁, c₁_def⟩ : ∃ c₁ : Cpu Csr Vm, c₁ = (c.setCsr .sscratch (c.reg .a0)).set .a0 (c.csr .sscratch) := ⟨_, rfl⟩
  have at₁ : c₁.reg .a0 = TRAPFRAME := by
    rw [c₁_def]
    exact (Function.update_self Reg.a0 (c.csr .sscratch) c.reg).trans scratch
  have kept : ∀ r, r ≠ .a0 → c₁.reg r = c.reg r := by
    intro r other
    rw [c₁_def]
    exact Function.update_of_ne other _ _
  have csr₁ : c₁.csr = Function.update c.csr .sscratch (c.reg .a0) := by rw [c₁_def]; rfl
  have mem₁ : c₁.mem = c.mem := by rw [c₁_def]; rfl
  have good₁ : Crossing L own l t f S c.mem c₁.csr c₁.mem := by
    rw [csr₁, mem₁]
    exact ⟨crossing.satp, crossing.mode, crossing.space, crossing.keeps, crossing.freelist⟩
  have first : Flows (bus code) (Crossing L own l t f S c.mem) [.csrrw .a0 .sscratch .a0] c c₁ := by
    rw [c₁_def]
    exact .one crossing rfl
  obtain ⟨m, m_def⟩ : ∃ m, m = saveAll (fun v off x => v.store (PGSIZE * f + off) x) c₁.reg saved c₁.mem := ⟨_, rfl⟩
  have second : Flows (bus code) (Crossing L own l t f S c.mem) (saved.map fun slot => .sd slot.1 slot.2 .a0) c₁
      { c₁ with mem := m } := by
    rw [m_def]
    exact window.save good₁ at₁ saved_fits
  have good₂ : Crossing L own l t f S c.mem c₁.csr m := by
    rw [m_def]
    exact window.saved_keeps c₁.reg good₁ saved_fits
  obtain ⟨reg, reg_def⟩ : ∃ reg, reg = Function.update c₁.reg .t0 (c.reg .a0) := ⟨_, rfl⟩
  have at₃ : reg .a0 = TRAPFRAME := by
    rw [reg_def, Function.update_of_ne (by decide), at₁]
  have third : Flows (bus code) (Crossing L own l t f S c.mem) [.csrr .t0 .sscratch] { c₁ with mem := m }
      { c₁ with reg, mem := m } := by
    refine .one good₂ ?_
    rw [Instr.effect, reg_def, Cpu.set, csr₁, Function.update_self]
  have fourth : Flows (bus code) (Crossing L own l t f S c.mem) [.sd .t0 112 .a0] { c₁ with reg, mem := m }
      { c₁ with reg, mem := m.store (PGSIZE * f + 112) (reg .t0) } :=
    window.sd (c := { c₁ with reg, mem := m }) good₂ at₃ (by decide) (by decide)
  have good₄ : Crossing L own l t f S c.mem c₁.csr (m.store (PGSIZE * f + 112) (reg .t0)) :=
    window.keeps good₂ (by decide) (by decide)
  have a0 : reg .t0 = c.reg .a0 := by rw [reg_def, Function.update_self]
  have apart : ∀ off, 8 ∣ off → (m.store (PGSIZE * f + 112) (reg .t0)).load (PGSIZE * f + off) =
      if off = 112 then reg .t0 else m.load (PGSIZE * f + off) := fun off whole => window.get_put (by decide) whole
  refine ⟨_, (first.append second).append (third.append fourth), csr₁, at₃, ⟨fun r => ?_, fun off whole other => ?_,
    good₄.keeps, good₄.freelist⟩, good₄⟩
  · by_cases same : r = .a0
    · rw [same, show place .a0 = 112 from rfl, apart 112 (by decide), if_pos rfl, a0]
    · have differ : place r ≠ 112 ∧ 8 ∣ place r := by
        cases r <;> first | exact absurd rfl same | decide
      rw [apart _ differ.2, if_neg differ.1, m_def, ← kept r same]
      exact window.saved_mem c₁.reg c₁.mem saved_fits (by decide) (mem_saved same)
  · obtain ⟨outside, differ⟩ := place_cases other
    rw [apart off whole, if_neg differ, m_def, ← mem₁]
    exact window.saved_other c₁.reg c₁.mem saved_fits whole outside

/-- What `uservec` takes from the trapframe. -/
def kernelWords : List (Reg × ℕ) := [(.sp, 8), (.tp, 32), (.t0, 16), (.t1, 0)]

/-- The second part of `uservec`: the kernel's stack, hart number and page table are taken from the trapframe. -/
theorem uservec_loads (code : ℕ → Option (Instr Csr × ℕ)) {kt : ℕ} {c : Cpu Csr Vm} (crossing : Crossing L own l t f S v₀ c.csr c.mem)
    (at_ : c.reg .a0 = TRAPFRAME) (small : kt < 2 ^ 44) (word : c.mem.load (PGSIZE * f) = MAKE_SATP (PGSIZE * kt))
    (kernel : sv39 c.mem.mem TRAMPOLINEPG 2 (PGSIZE * kt) = some (0, L.trampoline / PGSIZE * 1024 + 11)) :
    ∃ c', Flows (bus code) (Sees L)
      [.ld .sp 8 .a0, .ld .tp 32 .a0, .ld .t0 16 .a0, .ld .t1 0 .a0, .csrw .satp .t1, .fence] c c' ∧
      c'.csr = Function.update c.csr .satp (MAKE_SATP (PGSIZE * kt)) ∧ c'.mem = c.mem ∧ Sees L c'.csr c'.mem ∧
      c'.reg .sp = c.mem.load (PGSIZE * f + 8) ∧ c'.reg .tp = c.mem.load (PGSIZE * f + 32) ∧
      c'.reg .t0 = c.mem.load (PGSIZE * f + 16) := by
  have window : Window (bus code) (Crossing L own l t f S v₀) TRAPFRAME PGSIZE
    (fun v off => v.load (PGSIZE * f + off)) (fun v off x => v.store (PGSIZE * f + off) x) := crossing_window trap
  obtain ⟨reg, reg_def⟩ : ∃ reg, reg = loadAll (fun off => c.mem.load (PGSIZE * f + off)) kernelWords c.reg := ⟨_, rfl⟩
  have taken : ∀ r off, (r, off) ∈ kernelWords → reg r = c.mem.load (PGSIZE * f + off) := by
    intro r off member
    rw [reg_def, loadAll_mem _ _ (by decide) member]
  have loads : Flows (bus code) (Crossing L own l t f S v₀) (kernelWords.map fun slot => .ld slot.1 slot.2 .a0) c
      { c with reg } := by
    rw [reg_def]
    exact window.loads crossing at_ (by decide) (by decide)
  obtain ⟨csr, csr_def⟩ : ∃ csr, csr = Function.update c.csr .satp (MAKE_SATP (PGSIZE * kt)) := ⟨_, rfl⟩
  have sees : Sees L csr c.mem := by
    refine sees_entry (t := kt) (by rw [csr_def, Function.update_self]) small ?_ kernel
    rw [csr_def, Function.update_of_ne (by decide)]
    exact crossing.mode
  have switch : Flows (bus code) (Sees L) [.csrw .satp .t1] { c with reg } { c with reg, csr } := by
    refine .one crossing.sees ?_
    have t1 : reg .t1 = MAKE_SATP (PGSIZE * kt) := (taken .t1 0 (by decide)).trans word
    rw [Instr.effect, csr_def, ← t1]
    rfl
  have flows := (loads.mono fun _ _ => Crossing.sees).append (switch.append (.one (i := .fence) sees rfl))
  exact ⟨{ c with reg, csr }, flows, csr_def, rfl, sees, taken _ _ (by decide), taken _ _ (by decide), taken _ _ (by decide)⟩

/-- What `uservec` has done when it jumps to `usertrap`. -/
structure Entered (f kt : ℕ) (c c' : Cpu Csr Vm) : Prop where
  satp : c'.csr .satp = MAKE_SATP (PGSIZE * kt)
  csr : ∀ r, r ≠ .satp → r ≠ .sscratch → c'.csr r = c.csr r
  sp : c'.reg .sp = c.mem.load (PGSIZE * f + 8)
  tp : c'.reg .tp = c.mem.load (PGSIZE * f + 32)
  saves : Saves f c.reg c.mem c'.mem

/-- `uservec` saves every register and goes on in the kernel's page table. -/
theorem uservec_runs {kt : ℕ} {c : Cpu Csr Vm} (text : Text L code) (crossing : Crossing L own l t f S c.mem c.csr c.mem)
    (scratch : c.csr .sscratch = TRAPFRAME) (small : kt < 2 ^ 44) (word : c.mem.load (PGSIZE * f) = MAKE_SATP (PGSIZE * kt))
    (kernel : ∀ v : Vm, Keeps c.mem v (· ≠ f) →
      sv39 v.mem TRAMPOLINEPG 2 (PGSIZE * kt) = some (0, L.trampoline / PGSIZE * 1024 + 11)) :
    ∃ c', Runs (bus code) (TRAMPOLINE + text.uservec, c) (c.mem.load (PGSIZE * f + 16), c') ∧ Entered f kt c c' := by
  obtain ⟨c₁, first, csr₁, at₁, saves, crossing₁⟩ := uservec_saves trap code crossing scratch
  have kept : ∀ off ∈ [0, 8, 16, 32], c₁.mem.load (PGSIZE * f + off) = c.mem.load (PGSIZE * f + off) := by
    intro off member
    refine saves.other off ?_ fun r => ?_
    · revert off
      decide
    · rintro rfl
      revert member
      cases r <;> decide
  obtain ⟨c', second, csr', mem', sees, sp, tp, t0⟩ := uservec_loads trap code crossing₁ at₁ small
    ((kept 0 (by decide)).trans word) (kernel _ saves.keeps)
  obtain ⟨lines, same, stands, n, last⟩ := text.entry.stands
  have flows := (first.mono fun _ _ => Crossing.sees).append second
  have runs := (show Flows (bus code) (Sees L) (lines.map Prod.fst) c c' by rw [same]; exact flows).runs stands
  refine ⟨c', runs.tail ((step_jr (last _ _ sees)).trans ?_), ?_⟩
  · rw [t0, kept 16 (by decide)]
  · have both : c'.csr = Function.update (Function.update c.csr .sscratch (c.reg .a0)) .satp (MAKE_SATP (PGSIZE * kt)) := by
      rw [csr', csr₁]
    refine ⟨by rw [both, Function.update_self], fun r one two => ?_, sp.trans (kept 8 (by decide)),
      tp.trans (kept 32 (by decide)), by rwa [mem']⟩
    rw [both, Function.update_of_ne one, Function.update_of_ne two]

/-- What user code finds after `userret`. -/
structure Resumed (t f : ℕ) (c c' : Cpu Csr Vm) : Prop where
  regs : ∀ r, c'.reg r = c.mem.load (PGSIZE * f + place r)
  mem : c'.mem = c.mem
  satp : c'.csr .satp = MAKE_SATP (PGSIZE * t)
  scratch : c'.csr .sscratch = TRAPFRAME
  sret : ∃ csr, c'.csr = (sret csr).2 ∧ ∀ r, r ≠ .satp → r ≠ .sscratch → csr r = c.csr r

/-- `userret` loads every register through the page table of the process. -/
theorem userret_runs {c : Cpu Csr Vm} (text : Text L code) (sees : Sees L c.csr c.mem) (mode : c.csr .mode = SUPERVISOR)
    (space : Space L c.mem own l t S (topLeaves L f)) (a0 : c.reg .a0 = TRAPFRAME) (a1 : c.reg .a1 = MAKE_SATP (PGSIZE * t)) :
    ∃ c', Runs (bus code) (TRAMPOLINE + text.userret, c) (c.csr .sepc, c') ∧ Resumed t f c c' := by
  have window : Window (bus code) (Crossing L own l t f S c.mem) TRAPFRAME PGSIZE
    (fun v off => v.load (PGSIZE * f + off)) (fun v off x => v.store (PGSIZE * f + off) x) := crossing_window trap
  obtain ⟨x, x_def⟩ : ∃ x, x = c.mem.load (PGSIZE * f + 112) := ⟨_, rfl⟩
  obtain ⟨csr, csr_def⟩ : ∃ csr, csr = Function.update c.csr .satp (MAKE_SATP (PGSIZE * t)) := ⟨_, rfl⟩
  obtain ⟨csr₁, csr₁_def⟩ : ∃ csr₁, csr₁ = Function.update csr .sscratch x := ⟨_, rfl⟩
  obtain ⟨reg, reg_def⟩ : ∃ reg, reg = Function.update c.reg .t0 x := ⟨_, rfl⟩
  obtain ⟨reg₁, reg₁_def⟩ : ∃ reg₁, reg₁ = loadAll (fun off => c.mem.load (PGSIZE * f + off)) saved reg := ⟨_, rfl⟩
  have crossing : Crossing L own l t f S c.mem csr c.mem := by
    rw [csr_def]
    exact ⟨Function.update_self .., (Function.update_of_ne (by decide) _ _).trans mode, space, fun _ _ => rfl, rfl⟩
  have crossing₁ : Crossing L own l t f S c.mem csr₁ c.mem := by
    rw [csr₁_def]
    exact ⟨(Function.update_of_ne (by decide) _ _).trans crossing.satp,
      (Function.update_of_ne (by decide) _ _).trans crossing.mode, space, fun _ _ => rfl, rfl⟩
  have at₁ : reg .a0 = TRAPFRAME := by rw [reg_def, Function.update_of_ne (by decide), a0]
  have at₂ : reg₁ .a0 = TRAPFRAME := by rw [reg₁_def, loadAll_other _ _ (by decide), at₁]
  have one : Flows (bus code) (Sees L) [.csrw .satp .a1] c { c with csr } := by
    refine .one sees ?_
    rw [Instr.effect, csr_def, ← a1]
    rfl
  have two : Flows (bus code) (Crossing L own l t f S c.mem) [.fence] { c with csr } { c with csr } := .one crossing rfl
  have three : Flows (bus code) (Crossing L own l t f S c.mem) [.ld .t0 112 .a0] { c with csr } { c with reg, csr } := by
    rw [reg_def, x_def]
    exact window.ld (c := { c with csr }) crossing a0 (by decide) (by decide)
  have four : Flows (bus code) (Crossing L own l t f S c.mem) [.csrw .sscratch .t0] { c with reg, csr }
      { c with reg, csr := csr₁ } := by
    refine .one crossing ?_
    have t0 : reg .t0 = x := by rw [reg_def, Function.update_self]
    rw [Instr.effect, csr₁_def, ← t0]
    rfl
  have five : Flows (bus code) (Crossing L own l t f S c.mem) (saved.map fun slot => .ld slot.1 slot.2 .a0)
      { c with reg, csr := csr₁ } { c with reg := reg₁, csr := csr₁ } := by
    rw [reg₁_def]
    exact window.loads (c := { c with reg, csr := csr₁ }) crossing₁ at₁ saved_fits (by decide)
  obtain ⟨csr₂, csr₂_def⟩ : ∃ csr₂, csr₂ = Function.update csr₁ .sscratch TRAPFRAME := ⟨_, rfl⟩
  obtain ⟨reg₂, reg₂_def⟩ : ∃ reg₂, reg₂ = Function.update reg₁ .a0 x := ⟨_, rfl⟩
  have six : Flows (bus code) (Crossing L own l t f S c.mem) [.csrrw .a0 .sscratch .a0] { c with reg := reg₁, csr := csr₁ }
      { c with reg := reg₂, csr := csr₂ } := by
    refine .one crossing₁ ?_
    have scratch : csr₁ .sscratch = x := by rw [csr₁_def, Function.update_self]
    rw [Instr.effect, reg₂_def, csr₂_def, ← at₂, ← scratch]
    rfl
  have crossing₂ : Crossing L own l t f S c.mem csr₂ c.mem := by
    rw [csr₂_def]
    exact ⟨(Function.update_of_ne (by decide) _ _).trans crossing₁.satp,
      (Function.update_of_ne (by decide) _ _).trans crossing₁.mode, space, fun _ _ => rfl, rfl⟩
  have flows := one.append (((((two.append three).append four).append five).append six).mono fun _ _ => Crossing.sees)
  obtain ⟨lines, same, stands, n, last⟩ := text.exit.stands
  have runs := (show Flows (bus code) (Sees L) (lines.map Prod.fst) c { c with reg := reg₂, csr := csr₂ } by
    rw [same]; exact flows).runs stands
  have others : ∀ r, r ≠ .satp → r ≠ .sscratch → csr₂ r = c.csr r := by
    intro r one two
    rw [csr₂_def, Function.update_of_ne two, csr₁_def, Function.update_of_ne two, csr_def, Function.update_of_ne one]
  refine ⟨{ c with reg := reg₂, csr := (sret csr₂).2 }, runs.tail ((step_sret (last csr₂ c.mem crossing₂.sees)).trans ?_),
    fun r => ?_, rfl, ?_, ?_, csr₂, rfl, others⟩
  · change some ((sret csr₂).1, _) = _
    rw [← others .sepc (by decide) (by decide)]
    rfl
  · change reg₂ r = _
    rw [reg₂_def]
    by_cases same : r = .a0
    · rw [same, Function.update_self, x_def]
      rfl
    · rw [Function.update_of_ne same, reg₁_def, loadAll_mem _ _ (by decide) (mem_saved same)]
  · exact (sret_other csr₂ (by decide) (by decide)).trans crossing₂.satp
  · refine (sret_other csr₂ (r := .sscratch) (by decide) (by decide)).trans ?_
    rw [csr₂_def, Function.update_self]

end Passage

end HaloOS
