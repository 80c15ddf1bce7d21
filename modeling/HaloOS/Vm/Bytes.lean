import HaloOS.Vm.Sv39

/-! Bytes of physical memory and where the paging hardware finds those of a user address.
Stores and loads meet at single bytes: what has been written at an address is read back there, and
the bytes at other addresses stay. -/

namespace HaloOS

open Lib

variable {v v' : Vm} {pagetable srcva len u a pa : ℕ}

/-- The byte at an address of physical memory. -/
def Vm.byteAt (v : Vm) (a : ℕ) : Byte := BitVec.ofNat 8 (Vm.byteOf (v.load a) (a % 8))

/-- Where the hardware finds a user address; the system has no leaves above level 0. -/
def translate (v : Vm) (pagetable a : ℕ) : Option ℕ :=
  match sv39 v.mem (a / PGSIZE) 2 pagetable with
  | some (0, pte) => if pte &&& PTE_U ≠ 0 then some (PTE2PA pte + a % PGSIZE) else none
  | _ => none

def physical (v : Vm) (pagetable a : ℕ) : ℕ := (translate v pagetable a).getD 0

/-- The user range is mapped, page by page, to frames of memory; so are the pages of the
table itself. -/
structure MappedRange (v : Vm) (pagetable srcva len : ℕ) : Prop where
  user : srcva + len ≤ MAXVA
  tables : ∀ n, TablePage v.mem pagetable n → KERNELBASE ≤ PGSIZE * n
  pages : ∀ a, srcva ≤ a → a < srcva + len → ∃ pa, translate v pagetable a = some pa ∧
    KERNELBASE ≤ pa ∧ pa < PHYSTOP

/-- The bytes of a stretch of physical memory. -/
def Vm.stretch (v : Vm) (pa n : ℕ) : List Byte := (List.range n).map fun k => v.byteAt (pa + k)

section Frames

variable {w w' : Vm} {f g off : ℕ}

/-- Frames with the same words hold the same bytes. -/
theorem byteAt_frame (same : ∀ j < 512, w'.mem (512 * f + j) = w.mem (512 * g + j))
    (inside : off < PGSIZE) : w'.byteAt (PGSIZE * f + off) = w.byteAt (PGSIZE * g + off) := by
  have word : ∀ n, (PGSIZE * n + off) / 8 = 512 * n + off / 8 := by
    intro n
    simp only [PGSIZE]
    omega
  have byte : ∀ n, (PGSIZE * n + off) % 8 = off % 8 := by
    intro n
    simp only [PGSIZE]
    omega
  have small : off / 8 < 512 := by
    simp only [PGSIZE] at inside
    omega
  unfold Vm.byteAt Vm.load
  rw [word, word, byte, byte, same _ small]

theorem byteAt_keeps {K : ℕ → Prop} (keeps : Keeps w w' K) (kept : K f)
    (inside : off < PGSIZE) : w'.byteAt (PGSIZE * f + off) = w.byteAt (PGSIZE * f + off) :=
  byteAt_frame (fun _ small => keeps.at kept small) inside

theorem byteAt_zero (blank : ∀ j < 512, w.mem (512 * f + j) = 0) (inside : off < PGSIZE) :
    w.byteAt (PGSIZE * f + off) = 0 := by
  have word : (PGSIZE * f + off) / 8 = 512 * f + off / 8 := by
    simp only [PGSIZE]
    omega
  have small : off / 8 < 512 := by
    simp only [PGSIZE] at inside
    omega
  unfold Vm.byteAt Vm.load Vm.byteOf
  rw [word, blank _ small, Nat.zero_div]
  rfl

end Frames

/-- A word put together from its bytes. -/
def ofBytes (d : ℕ → ℕ) (s n : ℕ) : ℕ :=
  (List.range' s n).foldr (fun k rest => d k + 256 * rest) 0

theorem byteOf_ofBytes {d : ℕ → ℕ} (small : ∀ k, d k < 256) {n k : ℕ} (below : k < n) (s : ℕ) :
    Vm.byteOf (ofBytes d s n) k = d (s + k) := by
  induction n generalizing s k with
  | zero => omega
  | succ n ih =>
    have split : ofBytes d s (n + 1) = d s + 256 * ofBytes d (s + 1) n := by
      unfold ofBytes
      rw [List.range'_succ, List.foldr_cons]
    have first := small s
    unfold Vm.byteOf at ih ⊢
    rw [split]
    cases k with
    | zero =>
      rw [Nat.pow_zero, Nat.div_one, Nat.add_mul_mod_self_left, Nat.mod_eq_of_lt first]
      rfl
    | succ k =>
      have rest : (d s + 256 * ofBytes d (s + 1) n) / 256 = ofBytes d (s + 1) n := by omega
      rw [Nat.pow_succ', ← Nat.div_div_eq_div_mul, rest, ih (by omega)]
      congr 1
      omega

/-- What is read after `memmove(dst, src, n)`. -/
theorem byteAt_writeBytes (v : Vm) (dst : ℕ) (bytes : List Byte) (a : ℕ) :
    (v.writeBytes dst bytes).byteAt a =
      if dst ≤ a ∧ a < dst + bytes.length then bytes.getD (a - dst) 0 else v.byteAt a := by
  have split : 8 * (a / 8) + a % 8 = a := Nat.div_add_mod a 8
  have low : a % 8 < 8 := Nat.mod_lt _ (by decide)
  by_cases far : 8 * (a / 8) + 8 ≤ dst ∨ dst + bytes.length ≤ 8 * (a / 8)
  · have word : (v.writeBytes dst bytes).mem (a / 8) = v.mem (a / 8) := if_pos far
    rw [if_neg (by omega)]
    unfold Vm.byteAt Vm.load
    rw [word]
  · have word : (v.writeBytes dst bytes).mem (a / 8) = ofBytes (fun k =>
        if dst ≤ 8 * (a / 8) + k ∧ 8 * (a / 8) + k < dst + bytes.length then
          (bytes.getD (8 * (a / 8) + k - dst) 0).toNat
        else Vm.byteOf (v.mem (a / 8)) k) 0 8 := by
      unfold Vm.writeBytes ofBytes
      rw [← List.range_eq_range']
      exact if_neg far
    have small : ∀ k, (if dst ≤ 8 * (a / 8) + k ∧ 8 * (a / 8) + k < dst + bytes.length then
        (bytes.getD (8 * (a / 8) + k - dst) 0).toNat
        else Vm.byteOf (v.mem (a / 8)) k) < 256 := by
      intro k
      split
      · exact BitVec.isLt _
      · exact Nat.mod_lt _ (by decide)
    unfold Vm.byteAt Vm.load
    rw [word, byteOf_ofBytes small low, Nat.zero_add, split]
    by_cases inside : dst ≤ a ∧ a < dst + bytes.length
    · rw [if_pos inside, if_pos inside]
      simp
    · rw [if_neg inside, if_neg inside]

/-- The bottom entry that the hardware ends at is the one `walk` finds. -/
theorem walk_sv39 {pte : ℕ} (found : sv39 v.mem u 2 pagetable = some (0, pte))
    (tables : ∀ n, TablePage v.mem pagetable n → KERNELBASE ≤ PGSIZE * n) (small : u < 2 ^ 26) :
    ∃ place, walk pagetable (PGSIZE * u) false v = .ok (place, v) ∧ place ≠ 0 ∧
      v.load place = pte ∧ pte &&& PTE_V ≠ 0 := by
  have entry : ∀ table level, v.load (table + 8 * PX level (PGSIZE * u)) =
      v.mem (table / 8 + PX level (PGSIZE * u)) := by
    intro table level
    unfold Vm.load
    rw [Nat.add_mul_div_left _ _ (by decide)]
  have index : ∀ level, PX level (PGSIZE * u) < 512 := fun level => Nat.mod_lt _ (by decide)
  simp only [sv39] at found
  split at found
  · cases found
  · rename_i valid₂
    split at found
    · simp at found
    · split at found
      · cases found
      · rename_i valid₁
        split at found
        · simp at found
        · split at found
          · cases found
          · rename_i valid₀
            obtain rfl : _ = pte := by simpa using found
            have bottom := tables _ (.inr ⟨_, index 2, valid₂, .inr ⟨_, index 1, valid₁, rfl⟩⟩)
            refine ⟨_, ?_, ?_, entry _ 0, valid₀⟩
            · unfold walk
              rw [bind_run, stopIf_run, if_neg (by have := pageVa_lt small; omega)]
              simp only [walkFrom, bind_run, gets_run, entry, if_pos valid₂, if_pos valid₁, pure_run]
            · simp only [KERNELBASE, PGSIZE] at bottom ⊢
              omega

theorem translate_of {pte : ℕ} (entry : sv39 v.mem (a / PGSIZE) 2 pagetable = some (0, pte))
    (user : pte &&& PTE_U ≠ 0) : translate v pagetable a = some (PTE2PA pte + a % PGSIZE) := by
  simp only [translate, entry, if_pos user]

theorem translate_some (found : translate v pagetable a = some pa) :
    ∃ pte, sv39 v.mem (a / PGSIZE) 2 pagetable = some (0, pte) ∧ pte &&& PTE_U ≠ 0 ∧
      pa = PTE2PA pte + a % PGSIZE := by
  unfold translate at found
  split at found
  · rename_i pte entry
    by_cases user : pte &&& PTE_U ≠ 0
    · rw [if_pos user] at found
      exact ⟨pte, entry, user, (Option.some.inj found).symm⟩
    · simp [user] at found
  · cases found

theorem physical_eq (found : translate v pagetable a = some pa) : physical v pagetable a = pa := by
  simp [physical, found]

theorem PTE2PA_aligned (pte : ℕ) : PTE2PA pte % PGSIZE = 0 := by
  simp only [PTE2PA, PGSIZE, WORD]
  omega

/-- Inside a page the physical addresses follow the virtual ones. -/
theorem MappedRange.physical_add (mapped : MappedRange v pagetable srcva len) {j : ℕ} (low : srcva ≤ a)
    (inside : a + j < srcva + len) (page : a % PGSIZE + j < PGSIZE) :
    physical v pagetable (a + j) = physical v pagetable a + j := by
  obtain ⟨pa, found, -⟩ := mapped.pages a low (by omega)
  obtain ⟨pte, entry, user, rfl⟩ := translate_some found
  have same : (a + j) / PGSIZE = a / PGSIZE := by
    simp only [PGSIZE] at page ⊢
    omega
  have offset : (a + j) % PGSIZE = a % PGSIZE + j := by
    simp only [PGSIZE] at page ⊢
    omega
  rw [physical_eq found, physical_eq (translate_of (by rw [same, entry]) user), offset,
    Nat.add_assoc]

/-- `walkaddr` finds the frame of every address of the range. -/
theorem MappedRange.walkaddr (mapped : MappedRange v pagetable srcva len) (low : srcva ≤ a)
    (inside : a < srcva + len) : ∃ pa0, HaloOS.walkaddr pagetable (PGROUNDDOWN a) v = .ok (pa0, v) ∧
      pa0 ≠ 0 ∧ pa0 % PGSIZE = 0 ∧ pa0 + a % PGSIZE = physical v pagetable a := by
  obtain ⟨pa, found, above, -⟩ := mapped.pages a low inside
  obtain ⟨pte, entry, user, rfl⟩ := translate_some found
  have bound := mapped.user
  have small : a / PGSIZE < 2 ^ 26 := by
    simp only [MAXVA, PGSIZE] at bound ⊢
    omega
  have low : ¬ MAXVA ≤ PGSIZE * (a / PGSIZE) := by
    have := pageVa_lt small
    omega
  obtain ⟨place, walks, nonzero, load, valid⟩ := walk_sv39 entry mapped.tables small
  have frame : PTE2PA pte ≠ 0 := by
    simp only [KERNELBASE, PGSIZE] at above
    omega
  refine ⟨PTE2PA pte, ?_, frame, PTE2PA_aligned pte, (physical_eq found).symm⟩
  rw [PGROUNDDOWN, Nat.mul_comm]
  unfold HaloOS.walkaddr
  rw [if_neg low, bind_run, walks]
  simp only [bind_run, stopIf_run, gets_run, load, if_neg nonzero, if_neg valid, if_neg user,
    if_neg frame, pure_run]

theorem MappedRange.sub {n : ℕ} (mapped : MappedRange v pagetable srcva len) (lower : srcva ≤ a)
    (upper : a + n ≤ srcva + len) : MappedRange v pagetable a n where
  user := le_trans upper mapped.user
  tables := mapped.tables
  pages := fun c low high => mapped.pages c (by omega) (by omega)

section Sample

/-- Two user pages, 1 and 2, in frames with a page of zeros between them. -/
def scattered : Vm where
  mem w :=
    if w = 512 * 524288 then 524289 * 1024 + 1
    else if w = 512 * 524289 then 524290 * 1024 + 1
    else if w = 512 * 524290 + 1 then 524291 * 1024 + 31
    else if w = 512 * 524290 + 2 then 524293 * 1024 + 31
    else if w = 512 * 524293 then 7
    else 0
  freelist := 0

theorem scattered_tables (n : ℕ) (page : TablePage scattered.mem (PGSIZE * 524288) n) :
    n = 524288 ∨ n = 524289 ∨ n = 524290 := by
  have root : ∀ i < 512, scattered.mem (PGSIZE * 524288 / 8 + i) &&& PTE_V ≠ 0 → i = 0 := by
    decide +kernel
  have inner : ∀ j < 512, scattered.mem (PTE2PA (scattered.mem (PGSIZE * 524288 / 8 + 0)) / 8 + j)
      &&& PTE_V ≠ 0 → j = 0 := by
    decide +kernel
  rcases page with rfl | ⟨i, small, valid, rest⟩
  · decide +kernel
  obtain rfl := root i small valid
  rcases rest with rfl | ⟨j, low, valid', rfl⟩
  · decide +kernel
  obtain rfl := inner j low valid'
  decide +kernel

theorem frame_in_ram {n : ℕ} (first : 524288 ≤ n) (last : n < 557056) :
    KERNELBASE ≤ PGSIZE * n + a % PGSIZE ∧ PGSIZE * n + a % PGSIZE < PHYSTOP := by
  have base : KERNELBASE = PGSIZE * 524288 := rfl
  rw [PHYSTOP_eq, base]
  simp only [PGSIZE]
  omega

theorem scattered_translate (page : a / PGSIZE = 1 ∨ a / PGSIZE = 2) :
    translate scattered (PGSIZE * 524288) a =
      some (PGSIZE * (if a / PGSIZE = 1 then 524291 else 524293) + a % PGSIZE) := by
  have one : sv39 scattered.mem 1 2 (PGSIZE * 524288) = some (0, 524291 * 1024 + 31) := by
    decide +kernel
  have two : sv39 scattered.mem 2 2 (PGSIZE * 524288) = some (0, 524293 * 1024 + 31) := by
    decide +kernel
  have frame : PTE2PA (524291 * 1024 + 31) = PGSIZE * 524291 ∧
      PTE2PA (524293 * 1024 + 31) = PGSIZE * 524293 := by
    decide +kernel
  rcases page with page | page
  · rw [← page] at one
    rw [translate_of one (by decide), frame.1, if_pos page]
  · rw [translate_of (by rw [page]; exact two) (by decide), frame.2, if_neg (by omega)]

theorem scattered_page (low : PGSIZE ≤ a) (high : a < 3 * PGSIZE) :
    a / PGSIZE = 1 ∨ a / PGSIZE = 2 := by
  simp only [PGSIZE] at *
  omega

theorem scattered_mapped (low : PGSIZE ≤ srcva) (high : srcva + len ≤ 3 * PGSIZE) :
    MappedRange scattered (PGSIZE * 524288) srcva len where
  user := by
    simp only [MAXVA, PGSIZE] at *
    omega
  tables := by
    intro n page
    rcases scattered_tables n page with rfl | rfl | rfl <;> decide
  pages := by
    intro a above below
    refine ⟨_, scattered_translate (scattered_page (by omega) (by omega)), frame_in_ram ?_ ?_⟩ <;>
      split <;> decide

end Sample

end HaloOS
