import HaloOS.Lib.Copy
import HaloOS.Param

/-! The two copies of `memmove`, of `kernel/util.c` and of the user library. They take the direction
in which they copy from different tests. -/

namespace HaloOS.Util

open Lib

abbrev Addr := BitVec 64

/-- The bytes of an address space. -/
abbrev Bytes := Addr → Byte

/-- `while (n-- > 0) *d++ = *s++`. -/
def copyUp : ℕ → Bytes → Addr → Addr → Bytes
  | 0, mem, _, _ => mem
  | n + 1, mem, d, s => copyUp n (Function.update mem d (mem s)) (d + 1) (s + 1)

/-- `while (n-- > 0) *--d = *--s`. -/
def copyDown : ℕ → Bytes → Addr → Addr → Bytes
  | 0, mem, _, _ => mem
  | n + 1, mem, d, s => copyDown n (Function.update mem (d - 1) (mem (s - 1))) (d - 1) (s - 1)

/-- `memmove` of `kernel/util.c`, whose `n` is unsigned: the memory it leaves, and what it returns. -/
def Kernel.memmove (mem : Bytes) (dst src : Addr) (n : BitVec 32) : Bytes × Addr :=
  if n = 0 then (mem, dst)
  else
    let s := src
    let d := dst
    if s < d ∧ s + n.setWidth 64 > d then
      (copyDown n.toNat mem (d + n.setWidth 64) (s + n.setWidth 64), dst)
    else (copyUp n.toNat mem d s, dst)

/-- `memmove` of `user/ulib.c`, whose `n` is signed. -/
def User.memmove (mem : Bytes) (vdst vsrc : Addr) (n : BitVec 32) : Bytes × Addr :=
  let dst := vdst
  let src := vsrc
  if src > dst then (copyUp n.toInt.toNat mem dst src, vdst)
  else (copyDown n.toInt.toNat mem (dst + n.signExtend 64) (src + n.signExtend 64), vdst)

/-- The `n` bytes from `a` on do not wrap around the address space. -/
def InSpace (a : Addr) (n : ℕ) : Prop := a.toNat + n ≤ 2 ^ 64

instance (a : Addr) (n : ℕ) : Decidable (InSpace a n) := inferInstanceAs (Decidable (_ ≤ _))

/-- The `n` bytes from `src` on have come to `dst`, and no other byte has changed. -/
structure Moved (mem mem' : Bytes) (dst src : Addr) (n : ℕ) : Prop where
  moved : ∀ j < n, mem' (dst + BitVec.ofNat 64 j) = mem (src + BitVec.ofNat 64 j)
  kept : ∀ a, (∀ j < n, a ≠ dst + BitVec.ofNat 64 j) → mem' a = mem a

/-- The cells that are copied when the places are taken in the given order. -/
def cellsAt (dst src : Addr) (places : List ℕ) : List (Addr × Addr) :=
  places.map fun j => (dst + BitVec.ofNat 64 j, src + BitVec.ofNat 64 j)

section Moves

variable {mem : Bytes} {dst src : Addr} {n : ℕ}

theorem place_toNat (space : InSpace dst n) {j : ℕ} (inside : j < n) :
    (dst + BitVec.ofNat 64 j).toNat = dst.toNat + j := by
  unfold InSpace at space
  rw [BitVec.toNat_add, BitVec.toNat_ofNat]
  omega

/-- A list of all places below `n`, in an order in which no byte is read after it was written,
moves the bytes. -/
theorem moved_of_order {places : List ℕ} (all : ∀ j, j ∈ places ↔ j < n)
    (order : InOrder (cellsAt dst src places)) :
    Moved mem (copyCells (cellsAt dst src places) mem) dst src n := by
  refine ⟨fun j inside => ?_, fun a outside => ?_⟩
  · exact copyCells_target order (_, _) (List.mem_map.mpr ⟨j, (all j).mpr inside, rfl⟩)
  · refine copyCells_elsewhere fun cell member => ?_
    obtain ⟨j, there, rfl⟩ := List.mem_map.mp member
    exact outside j ((all j).mp there)

theorem copyUp_cells (n : ℕ) (mem : Bytes) (dst src : Addr) :
    copyUp n mem dst src = copyCells (cellsAt dst src (List.range n)) mem := by
  induction n generalizing mem dst src with
  | zero => rfl
  | succ n ih =>
    have shifted : cellsAt dst src ((List.range n).map Nat.succ) =
        cellsAt (dst + 1) (src + 1) (List.range n) := by
      unfold cellsAt
      rw [List.map_map]
      refine List.map_congr_left fun j _ => ?_
      simp only [Function.comp, Nat.succ_eq_add_one, BitVec.ofNat_add]
      rw [BitVec.add_comm (BitVec.ofNat 64 j), ← BitVec.add_assoc, ← BitVec.add_assoc]
      rfl
    rw [copyUp, ih, List.range_succ_eq_map, ← shifted]
    simp [cellsAt, copyCells]

theorem copyDown_cells (n : ℕ) (mem : Bytes) (dst src : Addr) :
    copyDown n mem (dst + BitVec.ofNat 64 n) (src + BitVec.ofNat 64 n) =
      copyCells (cellsAt dst src (List.range n).reverse) mem := by
  induction n generalizing mem with
  | zero => rfl
  | succ n ih =>
    have back : ∀ a : Addr, a + BitVec.ofNat 64 (n + 1) - 1 = a + BitVec.ofNat 64 n := by
      intro a
      rw [BitVec.ofNat_add, ← BitVec.add_assoc]
      exact BitVec.add_sub_cancel _ _
    rw [copyDown, back, back, ih, List.range_succ, List.reverse_append]
    rfl

/-- Upwards no byte is read after it was written unless a target lies behind its source. -/
theorem order_up (dstSpace : InSpace dst n) (srcSpace : InSpace src n)
    (apart : dst.toNat ≤ src.toNat ∨ src.toNat + n ≤ dst.toNat) :
    InOrder (cellsAt dst src (List.range n)) := by
  unfold InOrder cellsAt
  rw [List.pairwise_map]
  refine List.Pairwise.imp_of_mem ?_ List.pairwise_lt_range
  intro i j first second less
  have low := place_toNat dstSpace (List.mem_range.mp first)
  have high := place_toNat dstSpace (List.mem_range.mp second)
  have read := place_toNat srcSpace (List.mem_range.mp second)
  have bound := List.mem_range.mp second
  constructor
  · intro same
    have equal := congrArg BitVec.toNat same
    dsimp only at equal
    omega
  · intro same
    have equal := congrArg BitVec.toNat same
    dsimp only at equal
    omega

theorem order_down (dstSpace : InSpace dst n) (srcSpace : InSpace src n)
    (apart : src.toNat ≤ dst.toNat) :
    InOrder (cellsAt dst src (List.range n).reverse) := by
  unfold InOrder cellsAt
  rw [List.pairwise_map, List.pairwise_reverse]
  refine List.Pairwise.imp_of_mem ?_ List.pairwise_lt_range
  intro j i second first less
  have low := place_toNat dstSpace (List.mem_range.mp second)
  have high := place_toNat dstSpace (List.mem_range.mp first)
  have read := place_toNat srcSpace (List.mem_range.mp second)
  constructor
  · intro same
    have equal := congrArg BitVec.toNat same
    dsimp only at equal
    omega
  · intro same
    have equal := congrArg BitVec.toNat same
    dsimp only at equal
    omega

theorem copyUp_moved (dstSpace : InSpace dst n) (srcSpace : InSpace src n)
    (apart : dst.toNat ≤ src.toNat ∨ src.toNat + n ≤ dst.toNat) :
    Moved mem (copyUp n mem dst src) dst src n := by
  rw [copyUp_cells]
  exact moved_of_order (fun _ => List.mem_range) (order_up dstSpace srcSpace apart)

theorem copyDown_moved (dstSpace : InSpace dst n) (srcSpace : InSpace src n)
    (apart : src.toNat ≤ dst.toNat) :
    Moved mem (copyDown n mem (dst + BitVec.ofNat 64 n) (src + BitVec.ofNat 64 n)) dst src n := by
  rw [copyDown_cells]
  exact moved_of_order (fun _ => by rw [List.mem_reverse, List.mem_range])
    (order_down dstSpace srcSpace apart)

/-- Where the bytes come to is fixed by the memory they come from. -/
theorem Moved.unique {mem₁ mem₂ : Bytes} (first : Moved mem mem₁ dst src n)
    (second : Moved mem mem₂ dst src n) : mem₁ = mem₂ := by
  funext a
  by_cases target : ∃ j < n, a = dst + BitVec.ofNat 64 j
  · obtain ⟨j, inside, rfl⟩ := target
    rw [first.moved j inside, second.moved j inside]
  · have outside : ∀ j < n, a ≠ dst + BitVec.ofNat 64 j := fun j inside same =>
      target ⟨j, inside, same⟩
    rw [first.kept a outside, second.kept a outside]

end Moves

section Copies

variable {mem : Bytes} {dst src : Addr} {n : BitVec 32}

theorem setWidth_ofNat (n : BitVec 32) : n.setWidth 64 = BitVec.ofNat 64 n.toNat :=
  (BitVec.ofNat_toNat 64 n).symm

/-- The kernel's copy moves every range. Bytes are taken from the top where a target lies inside of
the source. -/
theorem kernel_moved (mem : Bytes) (dstSpace : InSpace dst n.toNat)
    (srcSpace : InSpace src n.toNat) :
    Moved mem (Kernel.memmove mem dst src n).1 dst src n.toNat := by
  unfold Kernel.memmove
  by_cases none : n = 0
  · rw [if_pos none, none]
    exact ⟨fun j inside => absurd inside (Nat.not_lt_zero j), fun _ _ => rfl⟩
  rw [if_neg none]
  dsimp only
  rw [setWidth_ofNat]
  by_cases behind : src < dst ∧ src + BitVec.ofNat 64 n.toNat > dst
  · rw [if_pos behind]
    exact copyDown_moved dstSpace srcSpace (Nat.le_of_lt (BitVec.lt_def.mp behind.1))
  · rw [if_neg behind]
    refine copyUp_moved dstSpace srcSpace ?_
    by_contra overlap
    have some : 0 < n.toNat := by
      have := fun zero => none (BitVec.eq_of_toNat_eq zero)
      have width : (0 : BitVec 32).toNat = 0 := rfl
      omega
    have first : src < dst := BitVec.lt_def.mpr (by omega)
    have last : dst < src + BitVec.ofNat 64 n.toNat := by
      unfold InSpace at dstSpace srcSpace
      rw [BitVec.lt_def, BitVec.toNat_add, BitVec.toNat_ofNat]
      omega
    exact behind ⟨first, last⟩

/-- The user's copy moves every range whose length its signed parameter can hold. -/
theorem user_moved (mem : Bytes) (dstSpace : InSpace dst n.toNat) (srcSpace : InSpace src n.toNat)
    (positive : 0 ≤ n.toInt) : Moved mem (User.memmove mem dst src n).1 dst src n.toNat := by
  have sign : n.msb = false := by simpa [BitVec.msb_eq_toInt] using positive
  have count : n.toInt.toNat = n.toNat := by
    rw [BitVec.toInt_eq_toNat_of_msb sign, Int.toNat_natCast]
  have extended : n.signExtend 64 = BitVec.ofNat 64 n.toNat := by
    rw [BitVec.signExtend_eq_setWidth_of_msb_false sign, setWidth_ofNat]
  unfold User.memmove
  dsimp only
  rw [count, extended]
  by_cases upwards : src > dst
  · rw [if_pos upwards]
    exact copyUp_moved dstSpace srcSpace (.inl (Nat.le_of_lt (BitVec.lt_def.mp upwards)))
  · rw [if_neg upwards]
    have below : src.toNat ≤ dst.toNat :=
      Nat.not_lt.mp fun less => upwards (BitVec.lt_def.mpr less)
    exact copyDown_moved dstSpace srcSpace below

/-- With a negative length the user's copy runs no round. -/
theorem user_negative (mem : Bytes) (dst src : Addr) (negative : n.toInt < 0) :
    User.memmove mem dst src n = (mem, dst) := by
  have count : n.toInt.toNat = 0 := Int.toNat_of_nonpos (Int.le_of_lt negative)
  unfold User.memmove
  dsimp only
  rw [count]
  split <;> rfl

theorem memmove_returns (mem : Bytes) (dst src : Addr) (n : BitVec 32) :
    (Kernel.memmove mem dst src n).2 = dst ∧ (User.memmove mem dst src n).2 = dst := by
  unfold Kernel.memmove User.memmove
  dsimp only
  constructor
  · split
    · rfl
    · split <;> rfl
  · split <;> rfl

/-- Both copies move every range that a signed length describes, and so agree on it; the kernel's
copy moves the longer ones too, for which the user's length is negative and nothing changes. -/
theorem memmove_moves (mem : Bytes) (dstSpace : InSpace dst n.toNat)
    (srcSpace : InSpace src n.toNat) :
    Moved mem (Kernel.memmove mem dst src n).1 dst src n.toNat ∧
      (0 ≤ n.toInt → Moved mem (User.memmove mem dst src n).1 dst src n.toNat ∧
        User.memmove mem dst src n = Kernel.memmove mem dst src n) ∧
      (n.toInt < 0 → (User.memmove mem dst src n).1 = mem) := by
  have kernel := kernel_moved mem dstSpace srcSpace
  refine ⟨kernel, fun positive => ?_, fun negative => by rw [user_negative mem dst src negative]⟩
  have user := user_moved mem dstSpace srcSpace positive
  obtain ⟨kernelDst, userDst⟩ := memmove_returns mem dst src n
  exact ⟨user, Prod.ext (user.unique kernel) (userDst.trans kernelDst.symm)⟩

end Copies

/-- Four bytes, one place up. -/
theorem memmove_moves_overlap :
    Moved (fun a => a.setWidth 8) (Kernel.memmove (fun a => a.setWidth 8) 17 16 4).1 17 16 4 ∧
      User.memmove (fun a => a.setWidth 8) 17 16 4 =
        Kernel.memmove (fun a => a.setWidth 8) 17 16 4 := by
  have both := memmove_moves (n := 4) (fun a => a.setWidth 8)
    (show InSpace 17 (4 : BitVec 32).toNat by decide) (show InSpace 16 (4 : BitVec 32).toNat by decide)
  exact ⟨both.1, (both.2.1 (by decide)).2⟩

/-- Two gigabytes from address 0 on: the kernel's copy moves them to the two gigabytes behind, for
the user's copy their number is negative. -/
theorem memmove_two_gigabytes :
    ∃ mem : Bytes, InSpace 0x80000000 (0x80000000 : BitVec 32).toNat ∧
      InSpace 0 (0x80000000 : BitVec 32).toNat ∧
      ¬ Moved mem (User.memmove mem 0x80000000 0 0x80000000).1 0x80000000 0
        (0x80000000 : BitVec 32).toNat ∧
      User.memmove mem 0x80000000 0 0x80000000 ≠ Kernel.memmove mem 0x80000000 0 0x80000000 := by
  have dstSpace : InSpace 0x80000000 (0x80000000 : BitVec 32).toNat := by decide
  have srcSpace : InSpace 0 (0x80000000 : BitVec 32).toNat := by decide
  have kernel := kernel_moved (fun a => if a = 0 then 1 else 0) dstSpace srcSpace
  have idle := user_negative (n := 0x80000000) (fun a => if a = 0 then 1 else 0) 0x80000000 0
    (by decide)
  have never : ¬ Moved (fun a => if a = 0 then 1 else 0)
      (User.memmove (fun a => if a = 0 then 1 else 0) 0x80000000 0 0x80000000).1 0x80000000 0
        (0x80000000 : BitVec 32).toNat := by
    intro moved
    have first := moved.moved 0 (by decide)
    rw [idle] at first
    exact absurd first (by decide)
  refine ⟨fun a => if a = 0 then 1 else 0, dstSpace, srcSpace, never, fun same => never ?_⟩
  rw [same]
  exact kernel

end HaloOS.Util
