import Mathlib.Logic.Function.Basic
import Mathlib.Logic.Relation
import Mathlib.Tactic.Common
import Mathlib.Data.Int.Notation
import Mathlib.Data.Nat.Notation
import Mathlib.Algebra.BigOperators.Group.List.Basic
import Mathlib.Algebra.GroupWithZero.Nat

/-! Straight pieces of RISC-V assembly: saving registers to a stretch of memory, loading them from it, and jumping
away. How code reaches memory and how it is fetched is left to a bus, so that a piece may run through an
address translation that it changes itself. -/

namespace HaloOS.Lib

/-- The integer registers but `zero`. -/
inductive Reg where
  | ra | sp | gp | tp | t0 | t1 | t2 | s0 | s1 | a0 | a1 | a2 | a3 | a4 | a5 | a6 | a7
  | s2 | s3 | s4 | s5 | s6 | s7 | s8 | s9 | s10 | s11 | t3 | t4 | t5 | t6
  deriving DecidableEq

/-- The instructions; the control and status registers are named by `Csr`. -/
inductive Instr (Csr : Type) where
  | sd (src : Reg) (off : ℕ) (base : Reg)
  | ld (dst : Reg) (off : ℕ) (base : Reg)
  | addi (dst src : Reg) (x : ℤ)
  | csrr (dst : Reg) (c : Csr)
  | csrw (c : Csr) (src : Reg)
  | csrrw (dst : Reg) (c : Csr) (src : Reg)
  | fence
  | jr (r : Reg)
  | call (target : ℕ)
  | sret

/-- What instructions work on, but for the program counter. -/
structure Cpu (Csr σ : Type) where
  reg : Reg → ℕ
  csr : Csr → ℕ
  mem : σ

/-- How code reaches memory, where it is fetched from, with the length of every instruction, and what `sret` does. -/
structure Bus (Csr σ : Type) where
  load : (Csr → ℕ) → σ → ℕ → Option ℕ
  store : (Csr → ℕ) → σ → ℕ → ℕ → Option σ
  fetch : (Csr → ℕ) → σ → ℕ → Option (Instr Csr × ℕ)
  sret : (Csr → ℕ) → ℕ × (Csr → ℕ)

variable {Csr σ : Type} [DecidableEq Csr]

def Cpu.set (c : Cpu Csr σ) (r : Reg) (x : ℕ) : Cpu Csr σ := { c with reg := Function.update c.reg r x }

def Cpu.setCsr (c : Cpu Csr σ) (r : Csr) (x : ℕ) : Cpu Csr σ := { c with csr := Function.update c.csr r x }

/-- An instruction that goes on to the next one. -/
def Instr.effect (bus : Bus Csr σ) : Instr Csr → Cpu Csr σ → Option (Cpu Csr σ)
  | .sd src off base, c =>
    (bus.store c.csr c.mem ((c.reg base + off) % 2 ^ 64) (c.reg src)).map fun mem => { c with mem }
  | .ld dst off base, c => (bus.load c.csr c.mem ((c.reg base + off) % 2 ^ 64)).map (c.set dst)
  | .addi dst src x, c => some (c.set dst ((c.reg src + x) % 2 ^ 64).toNat)
  | .csrr dst r, c => some (c.set dst (c.csr r))
  | .csrw r src, c => some (c.setCsr r (c.reg src))
  | .csrrw dst r src, c => some ((c.setCsr r (c.reg src)).set dst (c.csr r))
  | .fence, c => some c
  | .jr _, _ | .call _, _ | .sret, _ => none

def step (bus : Bus Csr σ) (pc : ℕ) (c : Cpu Csr σ) : Option (ℕ × Cpu Csr σ) :=
  match bus.fetch c.csr c.mem pc with
  | none => none
  | some (.jr r, _) => some (c.reg r, c)
  | some (.call target, n) => some (target, c.set .ra (pc + n))
  | some (.sret, _) => some ((bus.sret c.csr).1, { c with csr := (bus.sret c.csr).2 })
  | some (i, n) => (i.effect bus c).map fun c' => (pc + n, c')

/-- Some steps lead from one place to another. -/
def Runs (bus : Bus Csr σ) : ℕ × Cpu Csr σ → ℕ × Cpu Csr σ → Prop :=
  Relation.ReflTransGen fun a b => step bus a.1 a.2 = some b

section Blocks

variable {bus : Bus Csr σ} {Good Good' : (Csr → ℕ) → σ → Prop} {c c' c₁ : Cpu Csr σ} {is js : List (Instr Csr)}
  {i : Instr Csr} {va n : ℕ} {code rest : List (Instr Csr × ℕ)}

/-- The code is found at `va` wherever `Good` holds. -/
def Stands (bus : Bus Csr σ) (Good : (Csr → ℕ) → σ → Prop) : ℕ → List (Instr Csr × ℕ) → Prop
  | _, [] => True
  | va, (i, n) :: rest =>
    (∀ csr mem, Good csr mem → bus.fetch csr mem va = some (i, n)) ∧ Stands bus Good (va + n) rest

/-- The effects of instructions one after the other, with `Good` before each. -/
def Flows (bus : Bus Csr σ) (Good : (Csr → ℕ) → σ → Prop) : List (Instr Csr) → Cpu Csr σ → Cpu Csr σ → Prop
  | [], c, c' => c = c'
  | i :: is, c, c' => Good c.csr c.mem ∧ ∃ c₁, i.effect bus c = some c₁ ∧ Flows bus Good is c₁ c'

/-- How far a piece of code reaches. -/
def span (code : List (Instr Csr × ℕ)) : ℕ := (code.map Prod.snd).sum

omit [DecidableEq Csr] in
theorem span_nil : span ([] : List (Instr Csr × ℕ)) = 0 := rfl

omit [DecidableEq Csr] in
theorem span_cons (i : Instr Csr) (n : ℕ) (code : List (Instr Csr × ℕ)) : span ((i, n) :: code) = n + span code :=
  List.sum_cons

omit [DecidableEq Csr] in
theorem Stands.append (va : ℕ) :
    Stands bus Good va (code ++ rest) ↔ Stands bus Good va code ∧ Stands bus Good (va + span code) rest := by
  induction code generalizing va with
  | nil => simp [Stands, span_nil]
  | cons head code ih =>
    obtain ⟨i, n⟩ := head
    simp only [List.cons_append, Stands, ih, span_cons, and_assoc, Nat.add_assoc]

theorem Flows.one (good : Good c.csr c.mem) (effect : i.effect bus c = some c') : Flows bus Good [i] c c' :=
  ⟨good, c', effect, rfl⟩

theorem Flows.append (first : Flows bus Good is c c₁) (second : Flows bus Good js c₁ c') :
    Flows bus Good (is ++ js) c c' := by
  induction is generalizing c with
  | nil =>
    obtain rfl : c = c₁ := first
    exact second
  | cons i is ih =>
    obtain ⟨good, c₂, effect, later⟩ := first
    exact ⟨good, c₂, effect, ih later⟩

theorem Flows.mono (flows : Flows bus Good is c c') (weaker : ∀ csr mem, Good csr mem → Good' csr mem) :
    Flows bus Good' is c c' := by
  induction is generalizing c with
  | nil => exact flows
  | cons i is ih =>
    obtain ⟨good, c₁, effect, later⟩ := flows
    exact ⟨weaker _ _ good, c₁, effect, ih later⟩

theorem step_effect (fetched : bus.fetch c.csr c.mem va = some (i, n)) (effect : i.effect bus c = some c') :
    step bus va c = some (va + n, c') := by
  unfold step
  rw [fetched]
  cases i <;> simp_all [Instr.effect]

theorem step_jr {r : Reg} (fetched : bus.fetch c.csr c.mem va = some (.jr r, n)) : step bus va c = some (c.reg r, c) := by
  unfold step
  rw [fetched]

theorem step_sret (fetched : bus.fetch c.csr c.mem va = some (.sret, n)) :
    step bus va c = some ((bus.sret c.csr).1, { c with csr := (bus.sret c.csr).2 }) := by
  unfold step
  rw [fetched]

/-- Instructions that stand in a row run through. -/
theorem Flows.runs (flows : Flows bus Good (code.map Prod.fst) c c') (stands : Stands bus Good va code) :
    Runs bus (va, c) (va + span code, c') := by
  induction code generalizing va c with
  | nil =>
    obtain rfl : c = c' := flows
    exact .refl
  | cons head code ih =>
    obtain ⟨i, n⟩ := head
    obtain ⟨here, later⟩ := stands
    obtain ⟨good, c₁, effect, rest⟩ := flows
    have last := ih rest later
    rw [span_cons, ← Nat.add_assoc]
    exact .head (step_effect (here _ _ good) effect) last

end Blocks

section Tables

/-! ### Tables of registers and places -/

variable {table : List (Reg × ℕ)} {r : Reg} {off : ℕ}

/-- The values at the places of a table, taken from `get`. -/
def loadAll (get : ℕ → ℕ) (table : List (Reg × ℕ)) (reg : Reg → ℕ) : Reg → ℕ :=
  table.foldl (fun reg slot => Function.update reg slot.1 (get slot.2)) reg

theorem loadAll_other (get : ℕ → ℕ) (reg : Reg → ℕ) (outside : r ∉ table.map Prod.fst) :
    loadAll get table reg r = reg r := by
  induction table generalizing reg with
  | nil => rfl
  | cons slot table ih =>
    rw [List.map_cons, List.mem_cons, not_or] at outside
    exact (ih _ outside.2).trans (Function.update_of_ne outside.1 _ _)

theorem loadAll_mem (get : ℕ → ℕ) (reg : Reg → ℕ) (apart : (table.map Prod.fst).Nodup) (here : (r, off) ∈ table) :
    loadAll get table reg r = get off := by
  induction table generalizing reg with
  | nil => cases here
  | cons slot table ih =>
    rw [List.map_cons, List.nodup_cons] at apart
    rcases List.mem_cons.mp here with rfl | later
    · exact (loadAll_other get _ apart.1).trans (Function.update_self ..)
    · exact ih _ apart.2 later

/-- A stretch of memory at `a`, of which the code reaches the aligned words. -/
structure Window (bus : Bus Csr σ) (Good : (Csr → ℕ) → σ → Prop) (a size : ℕ) (get : σ → ℕ → ℕ)
    (put : σ → ℕ → ℕ → σ) : Prop where
  low : a + size ≤ 2 ^ 64
  load : ∀ {csr mem off}, Good csr mem → off < size → 8 ∣ off → bus.load csr mem (a + off) = some (get mem off)
  store : ∀ {csr mem off x}, Good csr mem → off < size → 8 ∣ off → bus.store csr mem (a + off) x = some (put mem off x)
  keeps : ∀ {csr mem off x}, Good csr mem → off < size → 8 ∣ off → Good csr (put mem off x)
  get_put : ∀ {mem off x off'}, 8 ∣ off → 8 ∣ off' → get (put mem off x) off' = if off' = off then x else get mem off'

variable {bus : Bus Csr σ} {Good : (Csr → ℕ) → σ → Prop} {a size : ℕ} {get : σ → ℕ → ℕ} {put : σ → ℕ → ℕ → σ}
  {c : Cpu Csr σ} {base src dst : Reg}

/-- Memory after registers have been saved to the places of a table. -/
def saveAll (put : σ → ℕ → ℕ → σ) (reg : Reg → ℕ) (table : List (Reg × ℕ)) (mem : σ) : σ :=
  table.foldl (fun mem slot => put mem slot.2 (reg slot.1)) mem

variable (window : Window bus Good a size get put)

include window

theorem Window.sd (good : Good c.csr c.mem) (at_ : c.reg base = a) (small : off < size) (whole : 8 ∣ off) :
    Flows bus Good [.sd src off base] c { c with mem := put c.mem off (c.reg src) } := by
  refine .one good ?_
  have low := window.low
  rw [Instr.effect, at_, Nat.mod_eq_of_lt (by omega), window.store good small whole]
  rfl

theorem Window.ld (good : Good c.csr c.mem) (at_ : c.reg base = a) (small : off < size) (whole : 8 ∣ off) :
    Flows bus Good [.ld dst off base] c (c.set dst (get c.mem off)) := by
  refine .one good ?_
  have low := window.low
  rw [Instr.effect, at_, Nat.mod_eq_of_lt (by omega), window.load good small whole]
  rfl

/-- Saving a table of registers. -/
theorem Window.save (good : Good c.csr c.mem) (at_ : c.reg base = a) (fits : ∀ slot ∈ table, slot.2 < size ∧ 8 ∣ slot.2) :
    Flows bus Good (table.map fun slot => .sd slot.1 slot.2 base) c { c with mem := saveAll put c.reg table c.mem } := by
  induction table generalizing c with
  | nil => rfl
  | cons slot table ih =>
    obtain ⟨⟨small, whole⟩, later⟩ := List.forall_mem_cons.mp fits
    have first : Flows bus Good [.sd slot.1 slot.2 base] c { c with mem := put c.mem slot.2 (c.reg slot.1) } :=
      window.sd good at_ small whole
    have good₁ : Good c.csr (put c.mem slot.2 (c.reg slot.1)) := window.keeps good small whole
    exact first.append (ih (c := { c with mem := put c.mem slot.2 (c.reg slot.1) }) good₁ at_ later)

omit [DecidableEq Csr] in
theorem Window.saved_keeps {csr : Csr → ℕ} {mem : σ} (reg : Reg → ℕ) (good : Good csr mem)
    (fits : ∀ slot ∈ table, slot.2 < size ∧ 8 ∣ slot.2) : Good csr (saveAll put reg table mem) := by
  induction table generalizing mem with
  | nil => exact good
  | cons slot table ih =>
    obtain ⟨⟨small, whole⟩, later⟩ := List.forall_mem_cons.mp fits
    exact ih (window.keeps good small whole) later

omit [DecidableEq Csr] in
/-- Places outside of the table hold what they did. -/
theorem Window.saved_other (reg : Reg → ℕ) (mem : σ) (fits : ∀ slot ∈ table, slot.2 < size ∧ 8 ∣ slot.2) (whole : 8 ∣ off)
    (outside : off ∉ table.map Prod.snd) : get (saveAll put reg table mem) off = get mem off := by
  induction table generalizing mem with
  | nil => rfl
  | cons slot table ih =>
    rw [List.map_cons, List.mem_cons, not_or] at outside
    obtain ⟨⟨-, aligned⟩, later⟩ := List.forall_mem_cons.mp fits
    refine (ih _ later outside.2).trans ?_
    rw [window.get_put aligned whole, if_neg outside.1]

omit [DecidableEq Csr] in
/-- Every place of the table holds its register. -/
theorem Window.saved_mem (reg : Reg → ℕ) (mem : σ) (fits : ∀ slot ∈ table, slot.2 < size ∧ 8 ∣ slot.2)
    (apart : (table.map Prod.snd).Nodup) (here : (r, off) ∈ table) : get (saveAll put reg table mem) off = reg r := by
  induction table generalizing mem with
  | nil => cases here
  | cons slot table ih =>
    rw [List.map_cons, List.nodup_cons] at apart
    obtain ⟨⟨-, aligned⟩, later⟩ := List.forall_mem_cons.mp fits
    rcases List.mem_cons.mp here with rfl | member
    · refine (window.saved_other reg _ later aligned apart.1).trans ?_
      rw [window.get_put aligned aligned, if_pos rfl]
    · exact ih _ later apart.2 member

/-- Loading a table of registers, the base not among them. -/
theorem Window.loads (good : Good c.csr c.mem) (at_ : c.reg base = a) (fits : ∀ slot ∈ table, slot.2 < size ∧ 8 ∣ slot.2)
    (kept : base ∉ table.map Prod.fst) : Flows bus Good (table.map fun slot => .ld slot.1 slot.2 base) c
      { c with reg := loadAll (get c.mem) table c.reg } := by
  induction table generalizing c with
  | nil => rfl
  | cons slot table ih =>
    rw [List.map_cons, List.mem_cons, not_or] at kept
    obtain ⟨⟨small, whole⟩, later⟩ := List.forall_mem_cons.mp fits
    have first : Flows bus Good [.ld slot.1 slot.2 base] c (c.set slot.1 (get c.mem slot.2)) :=
      window.ld good at_ small whole
    refine first.append (ih (c := c.set slot.1 (get c.mem slot.2)) good ?_ later kept.2)
    exact (Function.update_of_ne kept.1 _ _).trans at_

end Tables

end HaloOS.Lib
