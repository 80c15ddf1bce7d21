import HaloOS.Lib.Circle
import Mathlib.Data.List.Perm.Lattice
import Mathlib.Logic.Function.Basic

/-! The heap of a user program. `free` keeps the free blocks in a circle of ascending addresses, with
the static header `base` for its lowest element, and joins a block with its neighbours; `malloc`
takes the first block that is large enough. -/

namespace HaloOS.Umem

open Lib

/-- Memory in units of a `Header`, which takes 16 bytes. -/
structure Block where
  addr : ℕ
  units : ℕ
  deriving DecidableEq, Repr

def Block.stop (b : Block) : ℕ := b.addr + 16 * b.units

/-- The fields `s.ptr` and `s.size` of the header at each address, and `freep`. `core` lists what
`sbrk` has handed out. -/
structure Heap where
  ptr : ℕ → ℕ
  size : ℕ → ℕ
  freep : ℕ := 0
  core : List Block := []

/-- The loop of `free`, for at most the given number of rounds. -/
def freeLoop (h : Heap) (bp : ℕ) : ℕ → ℕ → Option ℕ
  | 0, _ => none
  | n + 1, p =>
    if bp > p ∧ bp < h.ptr p then some p
    else if p ≥ h.ptr p ∧ (bp > p ∨ bp < h.ptr p) then some p
    else freeLoop h bp n (h.ptr p)

/-- `bp` gets the successor of `p`, or is joined with it. -/
def joinNext (bp p : ℕ) (h : Heap) : Heap :=
  if bp + 16 * h.size bp = h.ptr p then
    { h with
      size := Function.update h.size bp ((h.size bp + h.size (h.ptr p)) % 2 ^ 32)
      ptr := Function.update h.ptr bp (h.ptr (h.ptr p)) }
  else { h with ptr := Function.update h.ptr bp (h.ptr p) }

/-- `bp` becomes the successor of `p`, or is joined with it. -/
def joinPrev (bp p : ℕ) (h : Heap) : Heap :=
  if p + 16 * h.size p = bp then
    { h with
      size := Function.update h.size p ((h.size p + h.size bp) % 2 ^ 32)
      ptr := Function.update h.ptr p (h.ptr bp) }
  else { h with ptr := Function.update h.ptr p bp }

def free (n ap : ℕ) (h : Heap) : Option Heap :=
  let bp := ap - 16
  match freeLoop h bp n h.freep with
  | none => none
  | some p => some { joinPrev bp p (joinNext bp p h) with freep := p }

/-- `morecore`, which returns 0 when `sbrk` fails. -/
def morecore (sbrk : Option ℕ) (n nu : ℕ) (h : Heap) : Option (ℕ × Heap) :=
  let nu := if nu < 4096 then 4096 else nu
  match sbrk with
  | none => some (0, h)
  | some hp =>
    let h := { h with core := h.core ++ [⟨hp, nu⟩], size := Function.update h.size hp nu }
    match free n (hp + 16) h with
    | none => none
    | some h => some (h.freep, h)

/-- The block `p` behind `prevp`, or the end of it, is taken for a caller. -/
def take (nunits prevp p : ℕ) (h : Heap) : ℕ × Heap :=
  if h.size p = nunits then
    (p + 16, { h with ptr := Function.update h.ptr prevp (h.ptr p), freep := prevp })
  else
    let size := Function.update h.size p (h.size p - nunits)
    let p := p + 16 * size p
    (p + 16, { h with size := Function.update size p nunits, freep := prevp })

/-- The loop of `malloc`, for at most the given number of rounds; `sbrk` gives the answers to the
calls of the loop, by number. -/
def mallocLoop (nunits : ℕ) (sbrk : ℕ → Option ℕ) : ℕ → ℕ → ℕ → ℕ → Heap → Option (ℕ × Heap)
  | 0, _, _, _, _ => none
  | n + 1, calls, prevp, p, h =>
    if nunits ≤ h.size p then some (take nunits prevp p h)
    else if p = h.freep then
      match morecore (sbrk calls) n nunits h with
      | none => none
      | some (p, h) =>
        if p = 0 then some (0, h) else mallocLoop nunits sbrk n (calls + 1) p (h.ptr p) h
    else mallocLoop nunits sbrk n calls p (h.ptr p) h

/-- The units for a number of bytes and the header. -/
def unitsFor (nbytes : ℕ) : ℕ := (nbytes + 16 - 1) / 16 + 1

/-- The first call makes `base` the only element of the circle. -/
def initFree (base : ℕ) (h : Heap) : Heap :=
  if h.freep = 0 then
    { h with
      ptr := Function.update h.ptr base base
      size := Function.update h.size base 0
      freep := base }
  else h

def malloc (base : ℕ) (sbrk : ℕ → Option ℕ) (n nbytes : ℕ) (h : Heap) : Option (ℕ × Heap) :=
  let h := initFree base h
  mallocLoop (unitsFor nbytes) sbrk n 0 h.freep (h.ptr h.freep) h

section Cells

/-- The addresses of the units of a block. -/
def Block.cells (b : Block) : List ℕ := (List.range b.units).map fun k => b.addr + 16 * k

/-- The units of all blocks of a list. -/
def cellsOf (blocks : List Block) : List ℕ := blocks.flatMap Block.cells

variable {a b : Block} {blocks : List Block}

theorem Block.mem_cells {x : ℕ} : x ∈ b.cells ↔ ∃ k < b.units, b.addr + 16 * k = x := by
  simp [Block.cells]

theorem Block.length_cells (b : Block) : b.cells.length = b.units := by simp [Block.cells]

/-- A block is made of its first units and the rest. -/
theorem Block.cells_split (addr m n : ℕ) :
    (Block.mk addr (m + n)).cells = (Block.mk addr m).cells ++ (Block.mk (addr + 16 * m) n).cells := by
  unfold Block.cells
  simp only [List.range_add, List.map_append, List.map_map]
  congr 1
  refine List.map_congr_left fun k _ => ?_
  simp only [Function.comp_apply]
  omega

theorem cellsOf_append (blocks others : List Block) :
    cellsOf (blocks ++ others) = cellsOf blocks ++ cellsOf others := by
  simp [cellsOf]

theorem cellsOf_cons (b : Block) (blocks : List Block) :
    cellsOf (b :: blocks) = b.cells ++ cellsOf blocks := by
  simp [cellsOf]

theorem cellsOf_nil : cellsOf [] = [] := rfl

theorem cellsOf_single (b : Block) : cellsOf [b] = b.cells := by simp [cellsOf]

/-- Blocks that share no unit lie one behind the other. -/
theorem stop_le_of_disjoint (disjoint : a.cells.Disjoint b.cells) (aligned : 16 ∣ a.addr)
    (aligned' : 16 ∣ b.addr) (some : 0 < b.units) (less : a.addr < b.addr) : a.stop ≤ b.addr := by
  obtain ⟨m, low⟩ := aligned
  obtain ⟨n, high⟩ := aligned'
  by_contra inside
  unfold Block.stop at inside
  have shared : b.addr ∈ a.cells := Block.mem_cells.mpr ⟨n - m, by omega, by omega⟩
  exact disjoint shared (Block.mem_cells.mpr ⟨0, some, by omega⟩)

end Cells

end HaloOS.Umem
