import HaloOS.Lib.Trace
import HaloOS.Vm.Pool
import Mathlib.Data.Set.Insert

/-! The page allocator over whole runs, for every place where the kernel may end. The
free list lives in the free pages; callers hold the other pages and write in them. -/

namespace HaloOS.Kmem

open Lib

variable (end_ : ℕ)

/-- `kfree` of a kernel that ends at `end_`. -/
def kfree (pa : ℕ) : Mio Unit := do
  stopIf (pa % PGSIZE ≠ 0 ∨ pa < end_ ∨ PHYSTOP ≤ pa) (.panic "kfree")
  update (Vm.memset pa 1)
  update fun v => { v.store pa v.freelist with freelist := pa }

def freeLoop : ℕ → ℕ → Mio Unit
  | 0, _ => pure ()
  | n + 1, p => do
    kfree end_ p
    freeLoop n (p + PGSIZE)

/-- `freerange`, page by page while `p + PGSIZE <= pa_end`. -/
def freerange (paStart paEnd : ℕ) : Mio Unit :=
  freeLoop end_ ((paEnd - PGROUNDUP paStart) / PGSIZE) (PGROUNDUP paStart)

/-- The kernel of `kinit` is one that ends where its linker script says. -/
theorem kfree_layout (L : Layout) : HaloOS.kfree L = kfree L.end_ := rfl

theorem freerange_layout (L : Layout) (paStart paEnd : ℕ) :
    HaloOS.freerange L paStart paEnd = freerange L.end_ paStart paEnd := by
  have loop : ∀ n p, HaloOS.freeLoop L n p = freeLoop L.end_ n p := by
    intro n
    induction n with
    | zero => intro p; rfl
    | succ n ih =>
      intro p
      simp only [HaloOS.freeLoop, freeLoop, kfree_layout, ih]
  exact loop _ _

/-- Memory, and the addresses that `kalloc` has returned and `kfree` not taken back. -/
structure Heap where
  vm : Vm
  out : Set ℕ

inductive Event where
  | alloc (pa : ℕ)
  | free (pa : ℕ)
  | write (pa off : ℕ) (bytes : List Byte)

/-- A call of the allocator, or a write by the holder of a page. -/
inductive Step : Heap → Event → Heap → Prop where
  | alloc {s : Heap} {r : ℕ} {v : Vm} (returned : kalloc s.vm = .ok (r, v)) :
      Step s (.alloc r) ⟨v, if r = 0 then s.out else insert r s.out⟩
  | free {s : Heap} {pa : ℕ} {v : Vm} (held : pa ∈ s.out)
      (returned : kfree end_ pa s.vm = .ok ((), v)) :
      Step s (.free pa) ⟨v, s.out \ {pa}⟩
  | write {s : Heap} {pa off : ℕ} {bytes : List Byte} (held : pa ∈ s.out)
      (inside : off + bytes.length ≤ PGSIZE) :
      Step s (.write pa off bytes) ⟨s.vm.writeBytes (pa + off) bytes, s.out⟩

/-- The address of a whole page between `PGROUNDUP(end)` and `PHYSTOP`. -/
def Whole (a : ℕ) : Prop := a % PGSIZE = 0 ∧ PGROUNDUP end_ ≤ a ∧ a + PGSIZE ≤ PHYSTOP

variable {end_}

theorem whole_iff (below : end_ < PHYSTOP) (n : ℕ) :
    Whole end_ (PGSIZE * n) ↔ end_ ≤ PGSIZE * n ∧ PGSIZE * n < PHYSTOP := by
  have top : PHYSTOP = 4096 * 557056 := PHYSTOP_eq
  have word : WORD = 2 ^ 64 := rfl
  have small : (end_ + 4096 - 1) % WORD = end_ + 4096 - 1 := Nat.mod_eq_of_lt (by omega)
  simp only [Whole, PGROUNDUP, PGSIZE, small, top]
  omega

/-- The free list is `l`, and it shares the pages in `P` with the holders. -/
structure Inv (P : ℕ → Prop) (s : Heap) (l : List ℕ) : Prop where
  links : Links s.vm.mem s.vm.freelist l
  nodup : l.Nodup
  apart : ∀ n ∈ l, PGSIZE * n ∉ s.out
  shared : ∀ n, P n ↔ n ∈ l ∨ PGSIZE * n ∈ s.out
  aligned : ∀ a ∈ s.out, a % PGSIZE = 0

/-- `kfree` of a page that is not in the list passes its check. -/
theorem kfree_run {v : Vm} {n : ℕ} (above : end_ ≤ PGSIZE * n) (below : PGSIZE * n < PHYSTOP) :
    kfree end_ (PGSIZE * n) v = .ok ((), { (v.memset (PGSIZE * n) 1).store (PGSIZE * n)
      v.freelist with freelist := PGSIZE * n }) := by
  have check : ¬ (PGSIZE * n % PGSIZE ≠ 0 ∨ PGSIZE * n < end_ ∨ PHYSTOP ≤ PGSIZE * n) := by
    simp only [Nat.mul_mod_right, ne_eq, not_true_eq_false, false_or, not_or, not_lt, not_le]
    exact ⟨above, below⟩
  unfold kfree
  simp only [bind_run, stopIf_run, if_neg check, update_run, freelist_memset]

theorem pos_of_above {n : ℕ} (pos : 0 < end_) (above : end_ ≤ PGSIZE * n) : 0 < n := by
  by_contra zero
  obtain rfl : n = 0 := by omega
  omega

/-- The loop of `freerange` hands over the pages one by one. -/
theorem freeLoop_spec (pos : 0 < end_) (count : ℕ) : ∀ {lo n : ℕ} {v : Vm} {l : List ℕ},
    Inv (fun m => lo ≤ m ∧ m < n) ⟨v, ∅⟩ l → end_ ≤ PGSIZE * lo → lo ≤ n →
      PGSIZE * (n + count) ≤ PHYSTOP →
      Sat (freeLoop end_ count (PGSIZE * n)) v (fun _ => False) fun _ v' =>
        ∃ l', Inv (fun m => lo ≤ m ∧ m < n + count) ⟨v', ∅⟩ l' := by
  induction count with
  | zero =>
    intro lo n v l inv _ _ _
    exact Sat.pure ⟨l, by simpa using inv⟩
  | succ count ih =>
    intro lo n v l inv above order below
    unfold freeLoop
    have reaches : end_ ≤ PGSIZE * n := above.trans (Nat.mul_le_mul_left _ order)
    have under : PGSIZE * n < PHYSTOP := by
      simp only [PGSIZE] at below ⊢
      omega
    have fresh : n ∉ l := by
      intro member
      have bound := (inv.shared n).mpr (.inl member)
      omega
    refine Sat.bind (Q := fun _ v' => Inv (fun m => lo ≤ m ∧ m < n + 1) ⟨v', ∅⟩ (n :: l)) ?_ ?_
    · unfold Sat
      rw [kfree_run reaches under]
      refine ⟨inv.links.push (pos_of_above pos reaches) fresh 1,
        List.nodup_cons.mpr ⟨fresh, inv.nodup⟩, by simp, ?_, by simp⟩
      intro m
      have old := inv.shared m
      simp only [Set.mem_empty_iff_false, or_false, List.mem_cons] at old ⊢
      rw [← old]
      omega
    · intro _ v' next
      rw [← Nat.mul_succ, ← Nat.add_assoc n count 1, Nat.add_right_comm n count 1]
      refine ih next above (by omega) ?_
      rwa [Nat.add_right_comm n 1 count, Nat.add_assoc n count 1]

/-- `freerange(end, PHYSTOP)` frees every whole page above the kernel. -/
theorem freerange_spec (pos : 0 < end_) (below : end_ < PHYSTOP) {v : Vm}
    (empty : v.freelist = 0) :
    ∃ v', freerange end_ end_ PHYSTOP v = .ok ((), v') ∧
      ∃ l, Inv (fun n => Whole end_ (PGSIZE * n)) ⟨v', ∅⟩ l := by
  have top : PHYSTOP = 4096 * 557056 := PHYSTOP_eq
  have word : WORD = 2 ^ 64 := rfl
  have small : (end_ + PGSIZE - 1) % WORD = end_ + PGSIZE - 1 :=
    Nat.mod_eq_of_lt (by simp only [PGSIZE]; omega)
  obtain ⟨lo, first⟩ : ∃ lo, PGROUNDUP end_ = PGSIZE * lo :=
    ⟨(end_ + PGSIZE - 1) / PGSIZE, by rw [PGROUNDUP, small, Nat.mul_comm]⟩
  have place : lo = (end_ + PGSIZE - 1) / PGSIZE := by
    have same : PGSIZE * lo = PGSIZE * ((end_ + PGSIZE - 1) / PGSIZE) := by
      rw [← first, PGROUNDUP, small, Nat.mul_comm]
    exact Nat.eq_of_mul_eq_mul_left (by decide) same
  have none : Inv (fun m => lo ≤ m ∧ m < lo) ⟨v, ∅⟩ [] := by
    refine ⟨empty, List.nodup_nil, by simp, ?_, by simp⟩
    intro m
    simp only [List.not_mem_nil, Set.mem_empty_iff_false, or_false, iff_false]
    omega
  have above : end_ ≤ PGSIZE * lo := by
    rw [place]
    simp only [PGSIZE]
    omega
  have room : PGSIZE * (lo + (PHYSTOP - PGSIZE * lo) / PGSIZE) ≤ PHYSTOP := by
    rw [place]
    simp only [PGSIZE, top]
    omega
  have spec := freeLoop_spec pos ((PHYSTOP - PGSIZE * lo) / PGSIZE) none above le_rfl room
  obtain ⟨_, v', returned, l, inv⟩ := spec.returns
  refine ⟨v', by rw [freerange, first]; exact returned, l, ?_⟩
  refine ⟨inv.links, inv.nodup, inv.apart, ?_, inv.aligned⟩
  intro n
  rw [← inv.shared n, whole_iff below]
  rw [place]
  simp only [PGSIZE, top]
  omega

section

variable {P : ℕ → Prop} {s : Heap} {l : List ℕ}

/-- `kalloc` returns 0 or the first page of the list. -/
theorem Inv.alloc (inv : Inv P s l) :
    (l = [] ∧ kalloc s.vm = .ok (0, s.vm)) ∨
    ∃ n rest v, l = n :: rest ∧ kalloc s.vm = .ok (PGSIZE * n, v) ∧ PGSIZE * n ≠ 0 ∧
      Inv P ⟨v, insert (PGSIZE * n) s.out⟩ rest := by
  rw [kalloc_run]
  cases l with
  | nil =>
    have empty : s.vm.freelist = 0 := inv.links
    exact .inl ⟨rfl, by simp [empty]⟩
  | cons n rest =>
    have head : s.vm.freelist = PGSIZE * n := inv.links.2.1
    have nonzero : PGSIZE * n ≠ 0 := by
      have above := inv.links.1
      simp only [PGSIZE]
      omega
    obtain ⟨fresh, nodup⟩ := List.nodup_cons.mp inv.nodup
    rw [head, if_neg nonzero]
    refine .inr ⟨n, rest, _, rfl, rfl, nonzero, ?_⟩
    refine ⟨inv.links.pop fresh 5, nodup, ?_, ?_, ?_⟩
    · intro m member
      have other : PGSIZE * m ≠ PGSIZE * n := by
        intro same
        obtain rfl : m = n := Nat.eq_of_mul_eq_mul_left (by decide) same
        exact fresh member
      simpa [Set.mem_insert_iff, other] using inv.apart m (by simp [member])
    · intro m
      have cancel : PGSIZE * m = PGSIZE * n ↔ m = n :=
        ⟨Nat.eq_of_mul_eq_mul_left (by decide), congrArg _⟩
      rw [inv.shared m, Set.mem_insert_iff, List.mem_cons, cancel]
      tauto
    · intro a held
      rcases Set.mem_insert_iff.mp held with rfl | old
      · exact Nat.mul_mod_right _ _
      · exact inv.aligned a old

/-- A held page is one of the pages. -/
theorem Inv.page (inv : Inv P s l) {a : ℕ} (held : a ∈ s.out) :
    ∃ n, a = PGSIZE * n ∧ P n ∧ n ∉ l := by
  obtain ⟨n, rfl⟩ := Nat.dvd_of_mod_eq_zero (inv.aligned a held)
  exact ⟨n, rfl, (inv.shared n).mpr (.inr held), fun member => inv.apart n member held⟩

theorem Inv.free (inv : Inv (fun n => Whole end_ (PGSIZE * n)) s l) (pos : 0 < end_)
    (below : end_ < PHYSTOP) {a : ℕ} (held : a ∈ s.out) :
    ∃ v n, kfree end_ a s.vm = .ok ((), v) ∧
      Inv (fun n => Whole end_ (PGSIZE * n)) ⟨v, s.out \ {a}⟩ (n :: l) := by
  obtain ⟨n, rfl, whole, fresh⟩ := inv.page held
  obtain ⟨above, under⟩ := (whole_iff below n).mp whole
  refine ⟨_, n, kfree_run above under, ?_⟩
  refine ⟨inv.links.push (pos_of_above pos above) fresh 1,
    List.nodup_cons.mpr ⟨fresh, inv.nodup⟩, ?_, ?_, ?_⟩
  · intro m member
    rcases List.mem_cons.mp member with rfl | old
    · simp
    · exact fun held => inv.apart m old held.1
  · intro m
    have cancel : PGSIZE * m = PGSIZE * n ↔ m = n :=
      ⟨Nat.eq_of_mul_eq_mul_left (by decide), congrArg _⟩
    rw [inv.shared m, Set.mem_sdiff, Set.mem_singleton_iff, List.mem_cons, cancel]
    by_cases same : m = n
    · simp [same, held]
    · simp [same]
  · exact fun b old => inv.aligned b old.1

theorem Inv.write (inv : Inv P s l) {a off : ℕ} {bytes : List Byte} (held : a ∈ s.out)
    (inside : off + bytes.length ≤ PGSIZE) :
    Inv P ⟨s.vm.writeBytes (a + off) bytes, s.out⟩ l := by
  obtain ⟨n, rfl, _, fresh⟩ := inv.page held
  refine ⟨?_, inv.nodup, inv.apart, inv.shared, inv.aligned⟩
  refine inv.links.congr ?_
  intro m member
  refine (keeps_writeBytes s.vm inside).at (k := 0) ?_ (by omega)
  rintro rfl
  exact fresh member

end

theorem Inv.step {s t : Heap} {e : Event} {l : List ℕ} (pos : 0 < end_)
    (below : end_ < PHYSTOP) (inv : Inv (fun n => Whole end_ (PGSIZE * n)) s l)
    (taken : Step end_ s e t) :
    ∃ l', Inv (fun n => Whole end_ (PGSIZE * n)) t l' := by
  cases taken with
  | @alloc r v returned =>
    rcases inv.alloc with ⟨_, zero⟩ | ⟨n, rest, v', _, page, nonzero, next⟩
    · obtain ⟨rfl, rfl⟩ : 0 = r ∧ s.vm = v := by simpa [zero] using returned
      exact ⟨l, by simpa using inv⟩
    · obtain ⟨rfl, rfl⟩ : PGSIZE * n = r ∧ v' = v := by simpa [page] using returned
      exact ⟨rest, by simpa [nonzero] using next⟩
  | @free a v held returned =>
    obtain ⟨v', n, freed, next⟩ := inv.free pos below held
    obtain rfl : v' = v := by simpa [freed] using returned
    exact ⟨n :: l, next⟩
  | write held inside => exact ⟨l, inv.write held inside⟩

/-- After `freerange`, in every run of calls and of writes by the holders, the free list
and the held pages share the whole pages above the kernel among them. -/
theorem kmem_correct {end_ : ℕ} (pos : 0 < end_) (below : end_ < PHYSTOP) {v : Vm}
    (empty : v.freelist = 0) :
    ∃ v', freerange end_ end_ PHYSTOP v = .ok ((), v') ∧
      ∀ s, Reachable (Step end_) ⟨v', ∅⟩ s →
        (∃ l, Links s.vm.mem s.vm.freelist l ∧ l.Nodup ∧
          (∀ n ∈ l, end_ ≤ PGSIZE * n ∧ PGSIZE * n < PHYSTOP ∧ PGSIZE * n ∉ s.out) ∧
          ∀ a, Whole end_ a ↔ (∃ n ∈ l, a = PGSIZE * n) ∨ a ∈ s.out) ∧
        (∃ r t, kalloc s.vm = .ok (r, t) ∧ r ∉ s.out ∧
          (r = 0 → ∀ a, Whole end_ a → a ∈ s.out)) ∧
        ∀ a ∈ s.out, ∃ t, kfree end_ a s.vm = .ok ((), t) := by
  obtain ⟨v', freed, l₀, start⟩ := freerange_spec pos below empty
  refine ⟨v', freed, ?_⟩
  intro s reached
  obtain ⟨l, inv⟩ := reached.invariant
    (fun s => ∃ l, Inv (fun n => Whole end_ (PGSIZE * n)) s l) ⟨l₀, start⟩
    fun s e t ⟨l, inv⟩ taken => inv.step pos below taken
  have shared : ∀ a, Whole end_ a ↔ (∃ n ∈ l, a = PGSIZE * n) ∨ a ∈ s.out := by
    intro a
    constructor
    · intro whole
      obtain ⟨n, rfl⟩ := Nat.dvd_of_mod_eq_zero whole.1
      rcases (inv.shared n).mp whole with member | held
      · exact .inl ⟨n, member, rfl⟩
      · exact .inr held
    · rintro (⟨n, member, rfl⟩ | held)
      · exact (inv.shared n).mpr (.inl member)
      · obtain ⟨n, rfl, whole, _⟩ := inv.page held
        exact whole
  refine ⟨⟨l, inv.links, inv.nodup, ?_, shared⟩, ?_, ?_⟩
  · intro n member
    obtain ⟨above, under⟩ := (whole_iff below n).mp ((inv.shared n).mpr (.inl member))
    exact ⟨above, under, inv.apart n member⟩
  · rcases inv.alloc with ⟨rfl, zero⟩ | ⟨n, rest, t, rfl, page, nonzero, _⟩
    · refine ⟨0, _, zero, ?_, ?_⟩
      · intro held
        obtain ⟨n, same, whole, _⟩ := inv.page held
        have above := ((whole_iff below n).mp whole).1
        omega
      · intro _ a whole
        simpa using (shared a).mp whole
    · exact ⟨_, t, page, inv.apart n (by simp), fun zero => absurd zero nonzero⟩
  · intro a held
    obtain ⟨t, _, freed, _⟩ := inv.free pos below held
    exact ⟨t, freed⟩

/-- One page is left above a kernel that ends just under it. -/
theorem kmem_correct_last : ∃ v', freerange (PHYSTOP - PGSIZE) (PHYSTOP - PGSIZE) PHYSTOP
    ⟨fun _ => 0, 0⟩ = .ok ((), v') ∧ ∃ r t, kalloc v' = .ok (r, t) ∧ r ∉ (∅ : Set ℕ) := by
  obtain ⟨v', freed, runs⟩ := kmem_correct (v := ⟨fun _ => 0, 0⟩)
    (by decide : 0 < PHYSTOP - PGSIZE) (by decide) rfl
  obtain ⟨_, ⟨r, t, returned, fresh, _⟩, _⟩ := runs _ (Reachable.refl _)
  exact ⟨v', freed, r, t, returned, fresh⟩

end HaloOS.Kmem
