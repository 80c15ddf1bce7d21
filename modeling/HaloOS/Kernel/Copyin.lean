import HaloOS.Lib.Logged
import HaloOS.Kernel.Model
import HaloOS.Vm.Bytes

/-! Reading user memory: `copyin` against the translation of the paging hardware. The loop
is run with a note of every stretch of physical memory it reads. -/

namespace HaloOS

open Lib

variable {v : Vm} {pagetable srcva len u a pa fuel : ℕ} {log : List (ℕ × ℕ)}

namespace Noted

/-- `copyinLoop` with a note of every source of `memmove` and its length. -/
def copyinLoop (pagetable : ℕ) : ℕ → ℕ → ℕ → Logged Stop Vm (ℕ × ℕ) (List Byte)
  | 0, _, _ => pure []
  | fuel + 1, srcva, len =>
    if len = 0 then pure []
    else do
      let va0 := PGROUNDDOWN srcva
      let pa0 ← plain (walkaddr pagetable va0)
      stopIf (pa0 = 0) (.panic "copyin:pa0 == 0\n")
      let n := min ((PGSIZE + 2 * WORD - (srcva + va0)) % WORD) len
      note (pa0 + (srcva - va0), n)
      let v ← plain (gets id)
      let bytes := (List.range n).map fun k => v.byteAt (pa0 + (srcva - va0) + k)
      let rest ← copyinLoop pagetable fuel (va0 + PGSIZE) (len - n)
      pure (bytes ++ rest)

def copyin (pagetable srcva len : ℕ) : Logged Stop Vm (ℕ × ℕ) (List Byte) :=
  copyinLoop pagetable len srcva len

end Noted

theorem copyinLoop_erases (pagetable fuel srcva len : ℕ) :
    Erases (Noted.copyinLoop pagetable fuel srcva len) (copyinLoop pagetable fuel srcva len) := by
  induction fuel generalizing srcva len with
  | zero => exact .pure []
  | succ fuel ih =>
    unfold Noted.copyinLoop copyinLoop
    by_cases none : len = 0
    · rw [if_pos none, if_pos none]
      exact .pure []
    · rw [if_neg none, if_neg none]
      refine .bind (.plain _) fun pa0 => ?_
      refine .bind (.stopIf _ _) fun _ => .note _ ?_
      refine .bind (.plain _) fun v => ?_
      exact .bind (ih _ _) fun rest => .pure _

/-- `copyin` returns the bytes the table translates the range to, and reads from no frame
but those of the range. -/
def CopiesIn (v : Vm) (pagetable srcva len : ℕ) : Prop :=
  ∃ bytes reads, copyin pagetable srcva len v = .ok (bytes, v) ∧
    Noted.copyin pagetable srcva len (v, []) = .ok (bytes, v, reads) ∧
    bytes = (List.range len).map (fun j => v.byteAt (physical v pagetable (srcva + j))) ∧
    ∀ read ∈ reads, ∀ i < read.2, ∃ a, srcva ≤ a ∧ a < srcva + len ∧
      (read.1 + i) / PGSIZE = physical v pagetable a / PGSIZE

/-- The first address of the range that lies beyond page 0. -/
def beyond (srcva : ℕ) : ℕ := max srcva PGSIZE

/-- From the first byte beyond page 0 on, physical memory goes on as the range does: every
further address is in a frame of the range and holds the byte the table translates to. -/
def RunsOn (v : Vm) (pagetable srcva len : ℕ) : Prop :=
  ∀ j, beyond srcva + j < srcva + len →
    v.byteAt (physical v pagetable (beyond srcva) + j) =
        v.byteAt (physical v pagetable (beyond srcva + j)) ∧
      ∃ a, srcva ≤ a ∧ a < srcva + len ∧
        (physical v pagetable (beyond srcva) + j) / PGSIZE = physical v pagetable a / PGSIZE

theorem Noted.copyinLoop_zero (pagetable fuel srcva : ℕ) :
    Noted.copyinLoop pagetable fuel srcva 0 = pure [] := by
  cases fuel <;> rfl

/-- One round of the loop. -/
theorem MappedRange.round (mapped : MappedRange v pagetable srcva len) (low : srcva ≤ a)
    (inside : a < srcva + len) {n : ℕ} (pos : 0 < n)
    (count : min ((PGSIZE + 2 * WORD - (a + PGROUNDDOWN a)) % WORD) n = u) :
    Noted.copyinLoop pagetable (fuel + 1) a n (v, log) =
      ((Noted.copyinLoop pagetable fuel (PGROUNDDOWN a + PGSIZE) (n - u))
        (v, (physical v pagetable a, u) :: log)).map fun result =>
          (v.stretch (physical v pagetable a) u ++ result.1, result.2) := by
  obtain ⟨pa0, walks, nonzero, -, place⟩ := mapped.walkaddr low inside
  have offset : a - PGROUNDDOWN a = a % PGSIZE := by
    simp only [PGROUNDDOWN, PGSIZE]
    omega
  conv_lhs => unfold Noted.copyinLoop
  rw [if_neg (by omega)]
  simp only [bind_run, plain, zoom, walks, stopIf_run, if_neg nonzero, note, update_run, gets_run,
    count, offset, place, id]
  cases Noted.copyinLoop pagetable fuel (PGROUNDDOWN a + PGSIZE) (n - u)
    (v, (physical v pagetable a, u) :: log) <;> rfl

/-- Beyond page 0 the length of a round wraps, so one round takes all that is left. -/
theorem MappedRange.last_round (mapped : MappedRange v pagetable srcva len) (low : srcva ≤ a)
    (high : PGSIZE ≤ a) {n : ℕ} (pos : 0 < n) (total : a + n = srcva + len) :
    Noted.copyinLoop pagetable (fuel + 1) a n (v, log) =
      .ok (v.stretch (physical v pagetable a) n, v, (physical v pagetable a, n) :: log) := by
  have bound := mapped.user
  have count : min ((PGSIZE + 2 * WORD - (a + PGROUNDDOWN a)) % WORD) n = n := by
    simp only [MAXVA, PGSIZE, WORD, PGROUNDDOWN] at *
    omega
  rw [mapped.round low (by omega) pos count, Nat.sub_self, Noted.copyinLoop_zero]
  simp [Except.map]

/-- The bytes of the range that lie in page 0. -/
def inFirst (srcva len : ℕ) : ℕ := min len (PGSIZE - srcva)

/-- What `copyin` does on a mapped range: at most two stretches are read, one in page 0
and one beyond it. -/
theorem MappedRange.copyin_run (mapped : MappedRange v pagetable srcva len) :
    ∃ reads, Noted.copyin pagetable srcva len (v, []) =
        .ok (v.stretch (physical v pagetable srcva) (inFirst srcva len) ++
          v.stretch (physical v pagetable (beyond srcva)) (len - inFirst srcva len), v, reads) ∧
      ∀ read, read ∈ reads ↔
        (0 < inFirst srcva len ∧ read = (physical v pagetable srcva, inFirst srcva len)) ∨
          (inFirst srcva len < len ∧
            read = (physical v pagetable (beyond srcva), len - inFirst srcva len)) := by
  unfold Noted.copyin
  by_cases high : PGSIZE ≤ srcva
  · have start : beyond srcva = srcva := max_eq_left high
    have none : inFirst srcva len = 0 := by simp [inFirst, high]
    rw [start, none]
    cases len with
    | zero => exact ⟨[], rfl, by simp⟩
    | succ n => exact ⟨_, mapped.last_round le_rfl high n.succ_pos rfl, by simp⟩
  · have start : beyond srcva = PGSIZE := max_eq_right (by omega)
    rw [start]
    cases len with
    | zero => exact ⟨[], by simp [inFirst, Noted.copyinLoop, Vm.stretch], by simp [inFirst]⟩
    | succ n =>
      have page : PGROUNDDOWN srcva = 0 := by
        simp only [PGROUNDDOWN, PGSIZE] at high ⊢
        omega
      have count : min ((PGSIZE + 2 * WORD - (srcva + PGROUNDDOWN srcva)) % WORD) (n + 1) =
          inFirst srcva (n + 1) := by
        rw [page, inFirst]
        simp only [PGSIZE, WORD] at high ⊢
        omega
      have some_ : 0 < inFirst srcva (n + 1) := by
        simp only [inFirst]
        omega
      rw [mapped.round le_rfl (by omega) n.succ_pos count, page, Nat.zero_add]
      by_cases all : inFirst srcva (n + 1) = n + 1
      · rw [all, Nat.sub_self, Noted.copyinLoop_zero]
        exact ⟨_, rfl, by simp⟩
      · have less : inFirst srcva (n + 1) < n + 1 := lt_of_le_of_ne (Nat.min_le_left _ _) all
        have border : PGSIZE + (n + 1 - inFirst srcva (n + 1)) = srcva + (n + 1) := by
          simp only [inFirst] at all ⊢
          omega
        obtain ⟨m, rfl⟩ : ∃ m, n = m + 1 := ⟨n - 1, by omega⟩
        rw [mapped.last_round (by omega) le_rfl (by omega) border]
        refine ⟨_, rfl, ?_⟩
        intro read
        simp only [List.mem_cons, List.not_mem_nil, or_false, some_, less, true_and]
        exact Or.comm

theorem stretches_eq_iff {A B h n : ℕ} {f : ℕ → Byte} :
    v.stretch A h ++ v.stretch B n = (List.range (h + n)).map f ↔
      (∀ j < h, v.byteAt (A + j) = f j) ∧ ∀ j < n, v.byteAt (B + j) = f (h + j) := by
  rw [List.range_add, List.map_append, List.map_map]
  unfold Vm.stretch
  constructor
  · intro same
    obtain ⟨left, right⟩ := List.append_inj same (by simp)
    rw [List.map_inj_left] at left right
    exact ⟨by simpa using left, by simpa using right⟩
  · rintro ⟨left, right⟩
    congr 1
    · exact List.map_inj_left.mpr (by simpa using left)
    · exact List.map_inj_left.mpr (by simpa using right)

/-- `copyin` is right exactly when physical memory runs on as the range does from the
first byte beyond page 0: the length of a round is computed with `srcva + va0` where
`srcva - va0` is meant. -/
theorem copyin_right_iff (mapped : MappedRange v pagetable srcva len) :
    CopiesIn v pagetable srcva len ↔ RunsOn v pagetable srcva len := by
  obtain ⟨reads, runs, members⟩ := mapped.copyin_run
  have split : inFirst srcva len + (len - inFirst srcva len) = len := by
    simp only [inFirst]
    omega
  have place : ∀ j, j < len - inFirst srcva len →
      beyond srcva + j = srcva + (inFirst srcva len + j) := by
    intro j
    simp only [inFirst, beyond]
    omega
  have inside : ∀ j, beyond srcva + j < srcva + len ↔ j < len - inFirst srcva len := by
    intro j
    simp only [inFirst, beyond]
    omega
  -- the part in page 0 is right on every mapped range
  have first : ∀ j < inFirst srcva len,
      physical v pagetable srcva + j = physical v pagetable (srcva + j) := by
    intro j below
    refine (mapped.physical_add le_rfl ?_ ?_).symm
    · omega
    · simp only [inFirst] at below
      have := Nat.mod_le srcva PGSIZE
      omega
  have bytes := stretches_eq_iff (v := v) (A := physical v pagetable srcva)
    (B := physical v pagetable (beyond srcva)) (h := inFirst srcva len)
    (n := len - inFirst srcva len) (f := fun j => v.byteAt (physical v pagetable (srcva + j)))
  rw [split] at bytes
  constructor
  · rintro ⟨_, reads', -, runs', right, frames⟩
    rw [runs] at runs'
    simp only [Except.ok.injEq, Prod.mk.injEq, true_and] at runs'
    obtain ⟨rfl, rfl⟩ := runs'
    intro j below
    have short := (inside j).mp below
    refine ⟨?_, ?_⟩
    · rw [place j short]
      exact (bytes.mp right).2 j short
    · exact frames _ ((members _).mpr (.inr ⟨by omega, rfl⟩)) j short
  · intro on
    refine ⟨_, reads, ?_, runs, bytes.mpr ⟨fun j below => ?_, fun j below => ?_⟩, ?_⟩
    · have erased := copyinLoop_erases pagetable len srcva len v []
      change (Noted.copyin pagetable srcva len (v, [])).map _ = _ at erased
      rw [runs] at erased
      exact erased.symm
    · rw [first j below]
    · rw [← place j below]
      exact (on j ((inside j).mpr below)).1
    · intro read member i below
      rcases (members read).mp member with ⟨-, rfl⟩ | ⟨-, rfl⟩
      · refine ⟨srcva + i, by omega, ?_, by rw [first i below]⟩
        have : i < inFirst srcva len := below
        omega
      · exact (on i ((inside i).mpr below)).2

/-- A range that is contiguous in physical memory beyond page 0 runs on. -/
theorem RunsOn.of_contiguous
    (contiguous : ∀ j, beyond srcva + j < srcva + len →
      physical v pagetable (beyond srcva + j) = physical v pagetable (beyond srcva) + j) :
    RunsOn v pagetable srcva len := by
  intro j below
  rw [contiguous j below]
  refine ⟨rfl, beyond srcva + j, ?_, below, by rw [contiguous j below]⟩
  simp only [beyond]
  omega

/-- In particular one that lies in a single page. -/
theorem MappedRange.runsOn (mapped : MappedRange v pagetable srcva len) (one : srcva % PGSIZE + len ≤ PGSIZE) :
    RunsOn v pagetable srcva len := by
  refine .of_contiguous fun j below => ?_
  refine mapped.physical_add (by simp only [beyond]; omega) below ?_
  simp only [beyond, PGSIZE] at *
  omega

section Sample

theorem copyin_right_page : MappedRange scattered (PGSIZE * 524288) PGSIZE PGSIZE ∧
    CopiesIn scattered (PGSIZE * 524288) PGSIZE PGSIZE := by
  have mapped : MappedRange scattered (PGSIZE * 524288) PGSIZE PGSIZE :=
    scattered_mapped le_rfl (by decide)
  exact ⟨mapped, (copyin_right_iff mapped).mpr (mapped.runsOn (by decide))⟩

/-- Two bytes across the border of pages 1 and 2: the second is taken from the frame
behind that of page 1. -/
theorem copyin_crosses : MappedRange scattered (PGSIZE * 524288) (2 * PGSIZE - 1) 2 ∧
    ¬ CopiesIn scattered (PGSIZE * 524288) (2 * PGSIZE - 1) 2 := by
  have mapped : MappedRange scattered (PGSIZE * 524288) (2 * PGSIZE - 1) 2 :=
    scattered_mapped (by decide) (by decide)
  refine ⟨mapped, ?_⟩
  rintro ⟨bytes, reads, -, runs, right, -⟩
  obtain ⟨reads', runs', -⟩ := mapped.copyin_run
  rw [runs'] at runs
  simp only [Except.ok.injEq, Prod.mk.injEq, true_and] at runs
  rw [← runs.1] at right
  revert right
  decide +kernel

end Sample

end HaloOS
