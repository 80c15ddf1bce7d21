import HaloOS.Vm.Model
import Mathlib.Tactic.Linarith

/-! The page allocator. Every page of memory has an owner, and the free list is exactly
the list of the pages whose owner is `free`: `kalloc` and `kfree` move one page between
the two. Pages are named by their number. -/

namespace HaloOS

open Lib

/-- What a page of memory is used for. Page-table pages carry the root they hang under
and their place in it, user pages the root and the virtual page number. -/
inductive Owner where
  | kernel
  | free
  | lost
  | held (t : ℕ)
  | trapframe (p : ℕ)
  | root (p : ℕ)
  | l1 (t i : ℕ)
  | l0 (t i j : ℕ)
  | user (t u : ℕ)
  deriving DecidableEq

variable {L : Layout}

/-- The pages the allocator may hand out. -/
def Managed (L : Layout) (n : ℕ) : Prop := L.end_ ≤ PGSIZE * n ∧ PGSIZE * n < PHYSTOP

/-- The list that hangs at `head`, linked through the first word of each page. -/
def Links (mem : ℕ → ℕ) : ℕ → List ℕ → Prop
  | head, [] => head = 0
  | head, n :: rest => 0 < n ∧ head = PGSIZE * n ∧ Links mem (mem (512 * n)) rest

/-- The pages in `P` keep their contents. -/
def Keeps (v v' : Vm) (P : ℕ → Prop) : Prop := ∀ w, P (w / 512) → v'.mem w = v.mem w

/-- The allocator's invariant. -/
structure Pool (L : Layout) (v : Vm) (own : ℕ → Owner) (l : List ℕ) : Prop where
  links : Links v.mem v.freelist l
  nodup : l.Nodup
  free : ∀ n, n ∈ l ↔ own n = .free
  managed : ∀ n, own n ≠ .kernel → Managed L n

theorem Layout.end_pos (L : Layout) : 0 < L.end_ := by
  have text := L.trampoline_text
  have above := L.text_end
  simp only [KERNELBASE, PGSIZE] at text
  omega

theorem Managed.pos {n : ℕ} (managed : Managed L n) : 0 < n := by
  have above := L.end_pos
  have lower := managed.1
  by_contra zero
  obtain rfl : n = 0 := by omega
  simp at lower
  omega

theorem PHYSTOP_eq : PHYSTOP = PGSIZE * 557056 := rfl

theorem Managed.lt {n : ℕ} (managed : Managed L n) : n < 557056 := by
  have upper := managed.2
  rw [PHYSTOP_eq] at upper
  exact lt_of_mul_lt_mul_left upper (Nat.zero_le _)

theorem Managed.ge {n : ℕ} (managed : Managed L n) : 524288 ≤ n := by
  have text := L.trampoline_text
  have above := L.text_end
  have lower := managed.1
  simp only [KERNELBASE, PGSIZE] at text lower
  omega

theorem Keeps.trans {v v' v'' : Vm} {P : ℕ → Prop} (first : Keeps v v' P)
    (second : Keeps v' v'' P) : Keeps v v'' P := by
  intro w inside
  rw [second w inside, first w inside]

theorem Keeps.mono {v v' : Vm} {P Q : ℕ → Prop} (keeps : Keeps v v' P)
    (fewer : ∀ n, Q n → P n) : Keeps v v' Q :=
  fun w inside => keeps w (fewer _ inside)

theorem Keeps.at {v v' : Vm} {P : ℕ → Prop} (keeps : Keeps v v' P) {n k : ℕ} (inside : P n)
    (small : k < 512) : v'.mem (512 * n + k) = v.mem (512 * n + k) := by
  refine keeps _ ?_
  rwa [show (512 * n + k) / 512 = n by omega]

theorem keeps_memset (v : Vm) (n c : ℕ) : Keeps v (v.memset (PGSIZE * n) c) (· ≠ n) := by
  intro w other
  have page : PGSIZE * n / PGSIZE = n := by simp [PGSIZE]
  simp [Vm.memset, page, other]

theorem keeps_store (v : Vm) {n k : ℕ} (small : k < 512) (x : ℕ) :
    Keeps v (v.store (PGSIZE * n + 8 * k) x) (· ≠ n) := by
  intro w other
  have word : (PGSIZE * n + 8 * k) / 8 = 512 * n + k := by simp only [PGSIZE]; omega
  have apart : w ≠ 512 * n + k := by
    rintro rfl
    exact other (by omega)
  simp [Vm.store, word, Function.update_of_ne apart]

theorem keeps_copyPage (v : Vm) (n src : ℕ) :
    Keeps v (v.copyPage (PGSIZE * n) src) (· ≠ n) := by
  intro w other
  have page : PGSIZE * n / PGSIZE = n := by simp [PGSIZE]
  simp [Vm.copyPage, page, other]

/-- Bytes written inside one page leave the others alone. -/
theorem keeps_writeBytes (v : Vm) {n off : ℕ} {bytes : List Byte}
    (inside : off + bytes.length ≤ PGSIZE) :
    Keeps v (v.writeBytes (PGSIZE * n + off) bytes) (· ≠ n) := by
  intro w other
  have outside : 8 * w + 8 ≤ PGSIZE * n + off ∨ PGSIZE * n + off + bytes.length ≤ 8 * w := by
    simp only [PGSIZE] at inside ⊢
    omega
  simp [Vm.writeBytes, outside]

@[simp] theorem load_entry (v : Vm) (n i : ℕ) :
    v.load (PGSIZE * n + 8 * i) = v.mem (512 * n + i) := by
  have word : (PGSIZE * n + 8 * i) / 8 = 512 * n + i := by simp only [PGSIZE]; omega
  simp [Vm.load, word]

theorem mem_store (v : Vm) (n k x : ℕ) :
    (v.store (PGSIZE * n + 8 * k) x).mem (512 * n + k) = x := by
  have word : (PGSIZE * n + 8 * k) / 8 = 512 * n + k := by simp only [PGSIZE]; omega
  simp [Vm.store, word]

theorem mem_store_of_ne (v : Vm) {n k w : ℕ} (other : w ≠ 512 * n + k) (x : ℕ) :
    (v.store (PGSIZE * n + 8 * k) x).mem w = v.mem w := by
  have word : (PGSIZE * n + 8 * k) / 8 = 512 * n + k := by simp only [PGSIZE]; omega
  simp [Vm.store, word, Function.update_of_ne other]

theorem mem_memset (v : Vm) (n c : ℕ) {k : ℕ} (small : k < 512) :
    (v.memset (PGSIZE * n) c).mem (512 * n + k) = c * 0x0101010101010101 := by
  have page : (512 * n + k) / 512 = PGSIZE * n / PGSIZE := by simp only [PGSIZE]; omega
  simp [Vm.memset, page]

@[simp] theorem freelist_store (v : Vm) (a x : ℕ) : (v.store a x).freelist = v.freelist := rfl
@[simp] theorem freelist_memset (v : Vm) (a c : ℕ) : (v.memset a c).freelist = v.freelist := rfl
@[simp] theorem freelist_copyPage (v : Vm) (a c : ℕ) :
    (v.copyPage a c).freelist = v.freelist := rfl
@[simp] theorem freelist_writeBytes (v : Vm) (a : ℕ) (bytes : List Byte) :
    (v.writeBytes a bytes).freelist = v.freelist := rfl

/-- The list is read off the first words of its pages only. -/
theorem Links.congr {mem mem' : ℕ → ℕ} {head : ℕ} {l : List ℕ} (links : Links mem head l)
    (same : ∀ n ∈ l, mem' (512 * n) = mem (512 * n)) : Links mem' head l := by
  induction l generalizing head with
  | nil => exact links
  | cons n rest ih =>
    refine ⟨links.1, links.2.1, ?_⟩
    rw [same n (by simp)]
    exact ih links.2.2 fun m member => same m (List.mem_cons_of_mem _ member)

theorem Links.unique {mem : ℕ → ℕ} {head : ℕ} {l l' : List ℕ} (left : Links mem head l)
    (right : Links mem head l') : l = l' := by
  induction l generalizing head l' with
  | nil =>
    cases l' with
    | nil => rfl
    | cons n rest =>
      have zero : PGSIZE * n = 0 := right.2.1.symm.trans left
      have above := right.1
      simp only [PGSIZE] at zero
      omega
  | cons n rest ih =>
    cases l' with
    | nil =>
      have zero : PGSIZE * n = 0 := left.2.1.symm.trans right
      have above := left.1
      simp only [PGSIZE] at zero
      omega
    | cons m rest' =>
      have same : PGSIZE * n = PGSIZE * m := left.2.1.symm.trans right.2.1
      obtain rfl : n = m := by
        simp only [PGSIZE] at same
        omega
      rw [ih left.2.2 right.2.2]

/-- The list without its first page, whose contents are overwritten. -/
theorem Links.pop {v : Vm} {n : ℕ} {rest : List ℕ} (links : Links v.mem v.freelist (n :: rest))
    (fresh : n ∉ rest) (c : ℕ) :
    Links (Vm.memset (PGSIZE * n) c { v with freelist := v.load (PGSIZE * n) }).mem
      (v.load (PGSIZE * n)) rest := by
  have link : v.load (PGSIZE * n) = v.mem (512 * n) := load_entry v n 0
  rw [link]
  refine links.2.2.congr ?_
  intro m member
  refine (keeps_memset { v with freelist := v.mem (512 * n) } n c).at (k := 0) ?_ (by omega)
  rintro rfl
  exact fresh member

/-- The list with a page put in front, whose contents are overwritten. -/
theorem Links.push {v : Vm} {n : ℕ} {l : List ℕ} (links : Links v.mem v.freelist l)
    (pos : 0 < n) (fresh : n ∉ l) (c : ℕ) :
    Links ((v.memset (PGSIZE * n) c).store (PGSIZE * n) v.freelist).mem (PGSIZE * n)
      (n :: l) := by
  refine ⟨pos, rfl, ?_⟩
  have link := mem_store (v.memset (PGSIZE * n) c) n 0 v.freelist
  simp only [Nat.mul_zero, Nat.add_zero] at link
  rw [link]
  refine links.congr ?_
  intro m member
  have keeps := (keeps_memset v n c).trans (keeps_store _ (k := 0) (by omega) v.freelist)
  refine keeps.at (k := 0) ?_ (by omega)
  rintro rfl
  exact fresh member

/-- What happens in pages that are not free does not concern the allocator. -/
theorem Pool.congr {v v' : Vm} {own : ℕ → Owner} {l : List ℕ} (pool : Pool L v own l)
    (freelist : v'.freelist = v.freelist) (keeps : Keeps v v' fun n => own n = .free) :
    Pool L v' own l where
  links := by
    rw [freelist]
    refine pool.links.congr ?_
    intro n member
    exact keeps.at ((pool.free n).mp member) (by omega : 0 < 512)
  nodup := pool.nodup
  free := pool.free
  managed := pool.managed

/-- Giving a page that is in use to somebody else. -/
theorem Pool.relabel {v : Vm} {own own' : ℕ → Owner} {l : List ℕ} (pool : Pool L v own l)
    (free : ∀ n, own' n = .free ↔ own n = .free)
    (kernel : ∀ n, own' n ≠ .kernel → own n ≠ .kernel) : Pool L v own' l where
  links := pool.links
  nodup := pool.nodup
  free := fun n => (pool.free n).trans (free n).symm
  managed := fun n used => pool.managed n (kernel n used)

theorem kalloc_run (v : Vm) : kalloc v = .ok (v.freelist,
    if v.freelist = 0 then v else Vm.memset v.freelist 5 { v with freelist := v.load v.freelist }) := by
  unfold kalloc
  rw [bind_run, gets_run]
  simp only [bind_run, onlyIf_run]
  by_cases empty : v.freelist = 0 <;> simp [empty]

/-- `kalloc` takes the first page of the free list, if there is one. -/
theorem kalloc_spec {v : Vm} {own : ℕ → Owner} {l : List ℕ} (pool : Pool L v own l)
    {E : Stop → Prop} :
    Sat kalloc v E fun r v' =>
      (r = 0 ∧ l = [] ∧ v' = v) ∨
      ∃ n rest, r = PGSIZE * n ∧ l = n :: rest ∧ own n = .free ∧ Managed L n ∧
        Keeps v v' (· ≠ n) ∧
        ∀ o, o ≠ .free → Pool L v' (Function.update own n o) rest := by
  unfold Sat
  rw [kalloc_run]
  cases l with
  | nil =>
    have empty : v.freelist = 0 := pool.links
    exact .inl ⟨empty, rfl, by simp [empty]⟩
  | cons n rest =>
    have head : v.freelist = PGSIZE * n := pool.links.2.1
    have free : own n = .free := (pool.free n).mp (by simp)
    have managed := pool.managed n (by simp [free])
    have nonzero : PGSIZE * n ≠ 0 := by
      have above := managed.pos
      simp only [PGSIZE]
      omega
    obtain ⟨fresh, nodup⟩ := List.nodup_cons.mp pool.nodup
    rw [head, if_neg nonzero]
    have keeps : Keeps v (Vm.memset (PGSIZE * n) 5 { v with freelist := v.load (PGSIZE * n) })
        (· ≠ n) := keeps_memset _ n 5
    refine .inr ⟨n, rest, rfl, rfl, free, managed, keeps, ?_⟩
    intro o used
    constructor
    · exact pool.links.pop fresh 5
    · exact nodup
    · intro m
      by_cases same : m = n
      · subst same
        simp [used, fresh]
      · rw [Function.update_of_ne same, ← pool.free m]
        simp [same]
    · intro m busy
      by_cases same : m = n
      · subst same
        exact managed
      · rw [Function.update_of_ne same] at busy
        exact pool.managed m busy

/-- `kfree` of a page in use puts it at the front of the free list. -/
theorem kfree_spec {v : Vm} {own : ℕ → Owner} {l : List ℕ} (pool : Pool L v own l) {n : ℕ}
    (managed : Managed L n) (used : own n ≠ .free) {E : Stop → Prop} :
    Sat (kfree L (PGSIZE * n)) v E fun _ v' =>
      Keeps v v' (· ≠ n) ∧ Pool L v' (Function.update own n .free) (n :: l) := by
  unfold kfree
  refine Sat.bind (Sat.stopIf (Q := fun _ t => v = t) ?_ fun _ => rfl) ?_
  · rintro (aligned | below | above)
    · simp [PGSIZE] at aligned
    · exact absurd managed.1 (by omega)
    · exact absurd managed.2 (by omega)
  rintro _ _ rfl
  refine Sat.bind (Sat.update (Q := fun _ t => v.memset (PGSIZE * n) 1 = t) rfl) ?_
  rintro _ _ rfl
  refine Sat.update ?_
  have fresh : n ∉ l := fun member => used ((pool.free n).mp member)
  have keeps : Keeps v ((v.memset (PGSIZE * n) 1).store (PGSIZE * n) (v.memset (PGSIZE * n) 1).freelist)
      (· ≠ n) := (keeps_memset v n 1).trans (keeps_store _ (k := 0) (by omega) _)
  refine ⟨keeps, ?_⟩
  constructor
  · exact pool.links.push managed.pos fresh 1
  · exact List.nodup_cons.mpr ⟨fresh, pool.nodup⟩
  · intro m
    by_cases same : m = n
    · subst same
      simp
    · rw [Function.update_of_ne same, ← pool.free m]
      simp [same]
  · intro m busy
    by_cases same : m = n
    · subst same
      exact managed
    · rw [Function.update_of_ne same] at busy
      exact pool.managed m busy

section Boot

/-! ### A machine with `n` free pages -/

def smallLayout : Layout where
  trampoline := KERNELBASE
  etext := KERNELBASE + PGSIZE
  end_ := KERNELBASE + PGSIZE
  trampoline_aligned := by decide
  trampoline_text := by decide
  text_end := by decide
  end_le := by decide

/-- The first free page. -/
def FIRSTPG : ℕ := 524300

/-- Memory with the free pages linked in ascending order. -/
def bootVm (n : ℕ) : Vm where
  mem := fun w =>
    if w % 512 = 0 ∧ FIRSTPG ≤ w / 512 ∧ w / 512 + 1 < FIRSTPG + n then PGSIZE * (w / 512 + 1) else 0
  freelist := if n = 0 then 0 else PGSIZE * FIRSTPG

theorem bootVm_links (n m i : ℕ) (count : i + m = n) :
    Links (bootVm n).mem (if m = 0 then 0 else PGSIZE * (FIRSTPG + i)) (List.range' (FIRSTPG + i) m) := by
  induction m generalizing i with
  | zero => rfl
  | succ m ih =>
    rw [List.range'_succ]
    refine ⟨by simp [FIRSTPG], rfl, ?_⟩
    have next : (bootVm n).mem (512 * (FIRSTPG + i)) =
        if m = 0 then 0 else PGSIZE * (FIRSTPG + (i + 1)) := by
      have page : 512 * (FIRSTPG + i) / 512 = FIRSTPG + i := by omega
      simp only [bootVm, page, Nat.mul_mod_right, true_and]
      by_cases last : m = 0
      · rw [if_pos last, if_neg (by omega)]
      · rw [if_neg last, if_pos (by omega)]
        rfl
    rw [next]
    exact ih (i + 1) (by omega)

theorem bootVm_managed {n : ℕ} (small : n ≤ 32756) :
    ∀ m ∈ List.range' FIRSTPG n, Managed smallLayout m := by
  intro m member
  obtain ⟨low, high⟩ := List.mem_range'_1.mp member
  have first : smallLayout.end_ = PGSIZE * 524289 := by decide
  unfold FIRSTPG at low high
  constructor
  · rw [first]
    exact Nat.mul_le_mul_left _ (by omega)
  · rw [PHYSTOP_eq]
    exact Nat.mul_lt_mul_of_pos_left (by omega) (by decide)

end Boot

end HaloOS
