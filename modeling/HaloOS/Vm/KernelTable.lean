import HaloOS.Vm.Freeing

/-! The kernel's own page table. `kvmmake` lays seven kinds of ranges into one tree; what the table
translates in the end is stated for every page number. -/

namespace HaloOS

open Lib

variable {L : Layout} {v v' : Vm} {S : Set ℕ} {t u n p : ℕ} {l : List ℕ} {E : Stop → Prop}
  {entry : ℕ → Option ℕ}

/-- Every page translates by `entry`. -/
def Translates (v : Vm) (t : ℕ) (entry : ℕ → Option ℕ) : Prop :=
  ∀ u < 2 ^ 27, Radix.value pteCoding v.mem 2 t u = entry u

/-- `kvmmap` of a range that translates to nothing so far. -/
theorem PageTable.addRange {α : Type} {va size f perm : ℕ} {next : Mio α} {Q : α → Vm → Prop}
    (table : PageTable L v t S l) (translates : Translates v t entry) (pos : 0 < size)
    (fits : va + size ≤ MAXVA) (frame : f < 2 ^ 44) (flags : perm < 1024)
    (clear : ∀ u, InRange va size u → entry u = none) (enough : tableCost va size < l.length)
    (goOn : ∀ v' S' l', PageTable L v' t S' l' →
      Translates v' t (fun u => if InRange va size u then
        some ((f + (u - va / PGSIZE)) * 1024 + (perm ||| PTE_V)) else entry u) →
      l.length ≤ l'.length + tableCost va size → (∀ m ∈ l', m ∈ l) → Sat next v' E Q) :
    Sat (do
      HaloOS.kvmmap (PGSIZE * t) va (PGSIZE * f) size perm
      next) v E Q := by
  refine Sat.bind (table.kvmmap pos fits frame flags (fun u inside => ?_) enough) ?_
  · have last := page_lt (show va + size - 1 < MAXVA by omega)
    rw [translates u (by have upper := inside.2; omega), clear u inside]
  · rintro _ v' ⟨used, l', rfl, cost, table', values, -⟩
    refine goOn v' _ l' table' (fun u small => ?_) ?_ ?_
    · rw [values u small, translates u small]
    · rw [List.length_append]
      omega
    · exact fun m member => List.mem_append_right _ member

/-- A page is taken that is no page of the table. -/
theorem PageTable.kalloc (table : PageTable L v t S l) (some : l ≠ []) :
    Sat kalloc v E fun r v' => ∃ n rest, l = n :: rest ∧ r = PGSIZE * n ∧ r ≠ 0 ∧ Managed L n ∧
      PageTable L v' t S rest ∧
      ∀ u, Radix.value pteCoding v'.mem 2 t u = Radix.value pteCoding v.mem 2 t u := by
  refine table.toFreeList.kalloc.mono ?_
  rintro r v' (⟨-, empty, -⟩ | ⟨n, rest, rfl, rfl, nonzero, -, managed, keeps, free⟩)
  · exact absurd empty some
  · have same : ∀ w, w / 512 ∈ S → v'.mem w = v.mem w :=
      fun w member => keeps w fun here => table.apart n (by simp) (here ▸ member)
    exact ⟨n, rest, rfl, rfl, nonzero, managed, ⟨free, table.tree.congr same,
      fun m member => table.apart m (List.mem_cons_of_mem n member), table.pos⟩,
      Radix.value_congr table.tree same⟩

/-- The page of a kernel stack; the pages on both sides of it stay unmapped. -/
def stackPage (i : ℕ) : ℕ := TRAMPOLINEPG - (i + 1) * 2

theorem KSTACK_eq (i : ℕ) : KSTACK i = PGSIZE * stackPage i := by
  simp only [KSTACK, stackPage, TRAMPOLINE, MAXVA, PGSIZE, TRAMPOLINEPG]
  omega

theorem tableCost_page (u : ℕ) : tableCost (PGSIZE * u) PGSIZE = 2 := by
  simp only [tableCost, PGSIZE]
  omega

theorem inRange_page (x u : ℕ) : InRange (PGSIZE * x) PGSIZE u ↔ u = x := by
  simp only [InRange, PGSIZE]
  omega

/-- `proc_mapstacks`: one frame of its own for every stack. -/
theorem PageTable.procMapstacks (table : PageTable L v t S l) (few : p + n ≤ NPROC)
    (blank : ∀ k < n, Radix.value pteCoding v.mem 2 t (stackPage (p + k)) = none)
    (enough : 3 * n < l.length) :
    Sat (procMapstacks (PGSIZE * t) n p) v E fun _ v' => ∃ frames inner l',
      frames.length = n ∧ PageTable L v' t {m | m ∈ S ∨ m ∈ inner} l' ∧
      l.Perm (frames ++ (inner ++ l')) ∧
      (∀ k f, frames[k]? = some f → Managed L f ∧
        Radix.value pteCoding v'.mem 2 t (stackPage (p + k)) = some (f * 1024 + 7)) ∧
      ∀ u < 2 ^ 27, (∀ k < n, u ≠ stackPage (p + k)) →
        Radix.value pteCoding v'.mem 2 t u = Radix.value pteCoding v.mem 2 t u := by
  induction n generalizing v S l p with
  | zero => exact Sat.pure ⟨[], [], l, rfl, by simpa using table, by simp, by simp, fun _ _ _ => rfl⟩
  | succ n ih =>
    have low : ∀ i < NPROC, stackPage i < 2 ^ 26 := by
      intro i _
      simp only [stackPage, TRAMPOLINEPG]
      omega
    have differ : ∀ i < NPROC, ∀ j < NPROC, stackPage i = stackPage j → i = j := by
      intro i small j small'
      simp only [stackPage, TRAMPOLINEPG, NPROC] at *
      omega
    have range : ∀ u, InRange (KSTACK p) PGSIZE u ↔ u = stackPage p := by
      intro u
      rw [KSTACK_eq, inRange_page]
    unfold HaloOS.procMapstacks
    refine Sat.bind (table.kalloc (by rintro rfl; simp at enough)) ?_
    rintro _ v₁ ⟨f, rest, rfl, rfl, nonzero, managed, table₁, same⟩
    refine Sat.bind (Sat.stopIf (Q := fun _ s => v₁ = s) (fun zero => absurd zero nonzero)
      fun _ => rfl) ?_
    rintro _ _ rfl
    rw [List.length_cons] at enough
    refine Sat.bind (table₁.kvmmap (by decide) ?_
      (by have := managed.lt; omega) (by decide) (fun u inside => ?_) ?_) ?_
    · rw [KSTACK_eq]
      exact Nat.mul_le_mul_left PGSIZE (Nat.succ_le_of_lt (low p (by omega)))
    · rw [(range u).mp inside, same]
      exact blank 0 (by omega)
    · rw [KSTACK_eq, tableCost_page]
      omega
    rintro _ v₂ ⟨used, l₂, rfl, cost, table₂, values, -⟩
    rw [KSTACK_eq, tableCost_page] at cost
    rw [List.length_append] at enough
    refine (ih table₂ (by omega) (fun k small => ?_) (by omega)).mono ?_
    · have other := differ p (by omega) (p + (k + 1)) (by omega)
      have next := blank (k + 1) (by omega)
      rw [show p + 1 + k = p + (k + 1) by omega, values _ (lt_trans (low _ (by omega)) (by decide)),
        if_neg (by rw [range]; omega), same, next]
    rintro _ v' ⟨frames, inner, l', length, table', list, placed, others⟩
    refine ⟨f :: frames, used ++ inner, l', by rw [List.length_cons, length], ?_, ?_, ?_, ?_⟩
    · have pages : {m | m ∈ S ∨ m ∈ used ++ inner} =
          {m | m ∈ {m | m ∈ S ∨ m ∈ used} ∨ m ∈ inner} := by
        ext m
        simp [or_assoc]
      rwa [pages]
    · rw [List.cons_append]
      refine List.Perm.cons f ?_
      refine (list.append_left used).trans (List.perm_iff_count.mpr fun x => ?_)
      simp only [List.count_append]
      omega
    · intro k g found
      cases k with
      | zero =>
        obtain rfl : f = g := by simpa using found
        refine ⟨managed, ?_⟩
        have here := values (stackPage p) (lt_trans (low p (by omega)) (by decide))
        rw [Nat.add_zero, others _ (lt_trans (low p (by omega)) (by decide)) fun k small same => ?_,
          here, if_pos ((range _).mpr rfl), KSTACK_eq, page_number, Nat.sub_self]
        · rfl
        · have := differ p (by omega) (p + 1 + k) (by omega) same
          omega
      | succ k =>
        obtain ⟨owned, value⟩ := placed k g (by simpa using found)
        exact ⟨owned, by rwa [show p + (k + 1) = p + 1 + k by omega]⟩
    · intro u small outside
      have first := outside 0 (by omega)
      rw [others u small fun k low same => outside (k + 1) (by omega) (by
          rw [same, show p + (k + 1) = p + 1 + k by omega]),
        values u small, if_neg (by rwa [range]), same]

section Make

variable {e tr : ℕ}

theorem inRange_pages (x c : ℕ) (some : 0 < c) (u : ℕ) :
    InRange (PGSIZE * x) (PGSIZE * c) u ↔ x ≤ u ∧ u < x + c := by
  simp only [InRange, PGSIZE]
  omega

theorem below_MAXVA {x c : ℕ} (small : x + c ≤ 2 ^ 26) :
    PGSIZE * x + PGSIZE * c ≤ MAXVA := by
  rw [← Nat.mul_add]
  exact Nat.mul_le_mul_left PGSIZE small

/-- What the table translates page `u` to before there are stacks, when the text ends at page `e` and
the trampoline is page `tr`. -/
def kernelEntry (e tr u : ℕ) : Option ℕ :=
  if u = TRAMPOLINEPG then some (tr * 1024 + 11)
  else if e ≤ u ∧ u < PHYSTOP / PGSIZE then some (u * 1024 + 7)
  else if KERNELBASE / PGSIZE ≤ u ∧ u < e then some (u * 1024 + 11)
  else if PLIC / PGSIZE ≤ u ∧ u < PLIC / PGSIZE + 1024 then some (u * 1024 + 7)
  else if u = VIRTIO0 / PGSIZE then some (u * 1024 + 7)
  else if u = UART / PGSIZE then some (u * 1024 + 7)
  else none

/-- The pages that `kvmmake` takes off the free list, at most. -/
def kvmCost (L : Layout) : ℕ :=
  1 + tableCost UART PGSIZE + tableCost VIRTIO0 PGSIZE + tableCost PLIC 0x400000 +
    tableCost KERNELBASE (L.etext - KERNELBASE) + tableCost L.etext (PHYSTOP - L.etext) +
    tableCost TRAMPOLINE PGSIZE + 3 * NPROC

/-- The text ends between the kernel's base and the pages that can be free. -/
theorem text_pages (text : L.etext = PGSIZE * e) (base : L.trampoline = PGSIZE * tr) {m : ℕ}
    (managed : Managed L m) : 524288 < e ∧ e < 557056 ∧ tr < e := by
  have low := L.trampoline_text
  have high : PGSIZE * e < PHYSTOP := by
    have order := L.text_end
    have bound := managed.1
    have last := managed.2
    rw [text] at order
    omega
  have bottom : KERNELBASE = PGSIZE * 524288 := rfl
  rw [PHYSTOP_eq] at high
  rw [text, base, bottom] at low
  simp only [PGSIZE] at low high
  omega

/-- `kvmmake` up to the stacks. -/
theorem kvmmake_ranges {α : Type} {next : ℕ → Mio α} {Q : α → Vm → Prop} (free : FreeList L v l)
    (text : L.etext = PGSIZE * e) (base : L.trampoline = PGSIZE * tr)
    (enough : kvmCost L < l.length)
    (goOn : ∀ v' t S l', PageTable L v' t S l' → Translates v' t (kernelEntry e tr) →
      3 * NPROC < l'.length → (∀ m ∈ l', m ∈ l) → Sat (next (PGSIZE * t)) v' E Q) :
    Sat (do
      let kpg ← kalloc
      stopIf (kpg = 0) .fault
      update (Vm.memset kpg 0)
      kvmmap kpg UART UART PGSIZE (PTE_R ||| PTE_W)
      kvmmap kpg VIRTIO0 VIRTIO0 PGSIZE (PTE_R ||| PTE_W)
      kvmmap kpg PLIC PLIC 0x400000 (PTE_R ||| PTE_W)
      kvmmap kpg KERNELBASE KERNELBASE (L.etext - KERNELBASE) (PTE_R ||| PTE_X)
      kvmmap kpg L.etext L.etext (PHYSTOP - L.etext) (PTE_R ||| PTE_W)
      kvmmap kpg TRAMPOLINE L.trampoline PGSIZE (PTE_R ||| PTE_X)
      next kpg) v E Q := by
  obtain ⟨page, listed⟩ : ∃ m, m ∈ l := List.exists_mem_of_ne_nil l (by rintro rfl; simp at enough)
  obtain ⟨b, base', isBase⟩ : ∃ b, KERNELBASE = PGSIZE * b ∧ b = 524288 := ⟨_, rfl, rfl⟩
  obtain ⟨d, stop, isStop⟩ : ∃ d, PHYSTOP = PGSIZE * d ∧ d = 557056 := ⟨_, PHYSTOP_eq, rfl⟩
  have span : b < e ∧ e < d ∧ tr < e := by
    rw [isBase, isStop]
    exact text_pages text base (free.managed page listed)
  have first : L.etext - KERNELBASE = PGSIZE * (e - b) := by
    rw [text, base', Nat.mul_sub]
  have rest : PHYSTOP - L.etext = PGSIZE * (d - e) := by
    rw [text, stop, Nat.mul_sub]
  unfold kvmCost at enough
  rw [first, rest] at enough ⊢
  rw [text] at enough ⊢
  have uart : UART = PGSIZE * 65536 := rfl
  have virtio : VIRTIO0 = PGSIZE * 65537 := rfl
  have plic : PLIC = PGSIZE * 49152 := rfl
  have plicSize : 0x400000 = PGSIZE * 1024 := rfl
  have top : TRAMPOLINE = PGSIZE * TRAMPOLINEPG := rfl
  rw [uart, virtio, plic, plicSize, base', top] at enough ⊢
  rw [base]
  refine Sat.bind free.kalloc ?_
  rintro r v₁ (⟨-, rfl, -⟩ | ⟨t, l₁, rfl, rfl, nonzero, fresh, managed, -, free₁⟩)
  · simp at enough
  refine Sat.bind (Sat.stopIf (Q := fun _ s => v₁ = s) (fun zero => absurd zero nonzero)
    fun _ => rfl) ?_
  rintro _ _ rfl
  refine Sat.bind (Sat.update (Q := fun _ s => s = v₁.memset (PGSIZE * t) 0) rfl) ?_
  rintro _ v₂ rfl
  have wiped := keeps_memset v₁ t 0
  have invalid : ∀ i < pteCoding.fan,
      pteCoding.valid ((v₁.memset (PGSIZE * t) 0).mem (pteCoding.fan * t + i)) = false := by
    intro i small
    rw [pteCoding_fan, mem_memset v₁ t 0 small]
    rfl
  obtain ⟨tree, nothing⟩ := Radix.tree_empty 2 invalid
  have table : PageTable L (v₁.memset (PGSIZE * t) 0) t {t} l₁ := by
    refine ⟨free₁.congr rfl (wiped.mono ?_), tree, ?_, ?_⟩
    · rintro m member rfl
      exact fresh member
    · rintro m member rfl
      exact fresh member
    · rintro m rfl
      exact managed.pos
  rw [List.length_cons] at enough
  have blank : Translates (v₁.memset (PGSIZE * t) 0) t fun _ => none := fun u _ => nothing u
  have inUart := inRange_page 65536
  have inVirtio := inRange_page 65537
  have inPlic := inRange_pages 49152 1024 (by omega)
  have inText := inRange_pages b (e - b) (by omega)
  have inData := inRange_pages e (d - e) (by omega)
  have inTop := inRange_page TRAMPOLINEPG
  refine table.addRange blank (by decide) (by decide) (by decide) (by decide) (fun _ _ => rfl) (by omega) ?_
  intro v₃ S₃ l₃ table₃ values₃ cost₃ sub₃
  refine table₃.addRange values₃ (by decide) (by decide) (by decide) (by decide) ?_ (by omega) ?_
  · intro u inside
    rw [inVirtio] at inside
    simp only [inUart]
    rw [if_neg (by omega)]
  intro v₄ S₄ l₄ table₄ values₄ cost₄ sub₄
  refine table₄.addRange values₄ (by decide) (by decide) (by decide) (by decide) ?_ (by omega) ?_
  · intro u inside
    rw [inPlic] at inside
    simp only [inVirtio, inUart]
    rw [if_neg (by omega), if_neg (by omega)]
  intro v₅ S₅ l₅ table₅ values₅ cost₅ sub₅
  refine table₅.addRange values₅ (Nat.mul_pos (by decide) (by omega)) (below_MAXVA (by omega))
    (by omega) (by decide) ?_ (by omega) ?_
  · intro u inside
    rw [inText] at inside
    simp only [inPlic, inVirtio, inUart]
    rw [if_neg (by omega), if_neg (by omega), if_neg (by omega)]
  intro v₆ S₆ l₆ table₆ values₆ cost₆ sub₆
  refine table₆.addRange values₆ (Nat.mul_pos (by decide) (by omega)) (below_MAXVA (by omega))
    (by omega) (by decide) ?_ (by omega) ?_
  · intro u inside
    rw [inData] at inside
    simp only [inText, inPlic, inVirtio, inUart]
    rw [if_neg (by omega), if_neg (by omega), if_neg (by omega), if_neg (by omega)]
  intro v₇ S₇ l₇ table₇ values₇ cost₇ sub₇
  refine table₇.addRange values₇ (by decide) (by decide) (by omega) (by decide) ?_ (by omega) ?_
  · intro u inside
    rw [inTop, TRAMPOLINEPG] at inside
    simp only [inData, inText, inPlic, inVirtio, inUart]
    rw [if_neg (by omega), if_neg (by omega), if_neg (by omega), if_neg (by omega),
      if_neg (by omega)]
  intro v₈ S₈ l₈ table₈ values₈ cost₈ sub₈
  refine goOn v₈ t S₈ l₈ table₈ ?_ (by omega) ?_
  · intro u small
    have textFlags : PTE_R ||| PTE_X ||| PTE_V = 11 := rfl
    have dataFlags : PTE_R ||| PTE_W ||| PTE_V = 7 := rfl
    rw [values₈ u small, kernelEntry, base', stop, uart, virtio, plic]
    simp only [inTop, inData, inText, inPlic, inVirtio, inUart, page_number, textFlags, dataFlags]
    refine ite_congr rfl (fun at_ => ?_) fun _ => ite_congr (propext ?_) (fun at_ => ?_) fun _ =>
      ite_congr (propext ?_) (fun at_ => ?_) fun _ => ite_congr rfl (fun at_ => ?_) fun _ =>
      ite_congr rfl (fun at_ => ?_) fun _ => ite_congr rfl (fun at_ => ?_) fun _ => rfl
    all_goals first
      | omega
      | rw [Option.some.injEq]; omega
  · intro m member
    exact List.mem_cons_of_mem t (sub₃ m (sub₄ m (sub₅ m (sub₆ m (sub₇ m (sub₈ m member))))))

end Make

/-- The hardware translates `a` to `pa` with exactly the given rights. -/
def MappedTo (v : Vm) (pagetable a pa perm : ℕ) : Prop :=
  ∃ pte, sv39 v.mem (a / PGSIZE) 2 pagetable = some (0, pte) ∧ PTE2PA pte + a % PGSIZE = pa ∧
    PTE_FLAGS pte = perm ||| PTE_V

/-- The hardware finds no translation of `a`. -/
def Unmapped (v : Vm) (pagetable a : ℕ) : Prop := sv39 v.mem (a / PGSIZE) 2 pagetable = none

/-- The addresses that the kernel uses. -/
def KernelRange (a : ℕ) : Prop :=
  (KERNELBASE ≤ a ∧ a < PHYSTOP) ∨ (UART ≤ a ∧ a < UART + PGSIZE) ∨
    (VIRTIO0 ≤ a ∧ a < VIRTIO0 + PGSIZE) ∨ (PLIC ≤ a ∧ a < PLIC + 0x400000) ∨
    (TRAMPOLINE ≤ a ∧ a < TRAMPOLINE + PGSIZE) ∨
    ∃ i < NPROC, KSTACK i ≤ a ∧ a < KSTACK i + PGSIZE

/-- The kernel's address space, with the frames of the stacks. -/
structure KernelSpace (L : Layout) (v : Vm) (kpg : ℕ) (frames : List ℕ) : Prop where
  text : ∀ a, KERNELBASE ≤ a → a < L.etext → MappedTo v kpg a a (PTE_R ||| PTE_X)
  data : ∀ a, L.etext ≤ a → a < PHYSTOP → MappedTo v kpg a a (PTE_R ||| PTE_W)
  uart : ∀ a, UART ≤ a → a < UART + PGSIZE → MappedTo v kpg a a (PTE_R ||| PTE_W)
  virtio : ∀ a, VIRTIO0 ≤ a → a < VIRTIO0 + PGSIZE → MappedTo v kpg a a (PTE_R ||| PTE_W)
  plic : ∀ a, PLIC ≤ a → a < PLIC + 0x400000 → MappedTo v kpg a a (PTE_R ||| PTE_W)
  trampoline : ∀ k < PGSIZE, MappedTo v kpg (TRAMPOLINE + k) (L.trampoline + k) (PTE_R ||| PTE_X)
  kstacks : ∀ i < NPROC, ∃ f, frames[i]? = some f ∧
    ∀ k < PGSIZE, MappedTo v kpg (KSTACK i + k) (PGSIZE * f + k) (PTE_R ||| PTE_W)
  nothing : ∀ a < 2 ^ 39, ¬ KernelRange a → Unmapped v kpg a

/-- What holds page by page when the table is done. -/
structure KernelPages (v : Vm) (t e tr : ℕ) (frames : List ℕ) : Prop where
  length : frames.length = NPROC
  stack : ∀ i f, frames[i]? = some f → f < 557056 ∧
    Radix.value pteCoding v.mem 2 t (stackPage i) = some (f * 1024 + 7)
  other : ∀ u < 2 ^ 27, (∀ i < NPROC, u ≠ stackPage i) →
    Radix.value pteCoding v.mem 2 t u = kernelEntry e tr u

section Pages

variable {e tr f a : ℕ} {frames : List ℕ}

theorem tablePage_mem {mem : ℕ → ℕ} (tree : Radix.Tree pteCoding mem 2 t S)
    (page : TablePage mem (PGSIZE * t) n) : n ∈ S := by
  rw [TablePage, page_words, page_number] at page
  rcases page with rfl | ⟨i, small, valid, rest⟩
  · exact tree.root_mem
  obtain ⟨T, inside, inner⟩ := tree.child small ((valid_iff _).mpr valid)
  rw [pteCoding_fan] at inner
  rcases rest with rfl | ⟨j, low, valid', rfl⟩
  · exact inside _ inner.root_mem
  · have word : PTE2PA (mem (512 * t + i)) / 8 = 512 * pteCoding.child (mem (512 * t + i)) := by
      rw [PTE2PA_child, page_words]
    rw [word] at valid' ⊢
    obtain ⟨T', inside', bottom⟩ := inner.child low ((valid_iff _).mpr valid')
    exact inside _ (inside' _ bottom.root_mem)

theorem MappedTo.ofValue {perm : ℕ} (tree : Radix.Tree pteCoding v.mem 2 t S)
    (value : Radix.value pteCoding v.mem 2 t (a / PGSIZE) = some (f * 1024 + (perm ||| PTE_V)))
    (small : f < 557056) (flags : perm ||| PTE_V < 1024) :
    MappedTo v (PGSIZE * t) a (PGSIZE * f + a % PGSIZE) perm := by
  refine ⟨_, ?_, ?_, entry_flags f flags⟩
  · rw [sv39_value tree, value]
    rfl
  · rw [entry_page small flags]

theorem MappedTo.ofSelf {perm : ℕ} (tree : Radix.Tree pteCoding v.mem 2 t S)
    (value : Radix.value pteCoding v.mem 2 t (a / PGSIZE) =
      some (a / PGSIZE * 1024 + (perm ||| PTE_V)))
    (small : a / PGSIZE < 557056) (flags : perm ||| PTE_V < 1024) :
    MappedTo v (PGSIZE * t) a a perm := by
  have whole := MappedTo.ofValue tree value small flags
  rwa [Nat.div_add_mod] at whole

theorem Unmapped.ofValue (tree : Radix.Tree pteCoding v.mem 2 t S)
    (value : Radix.value pteCoding v.mem 2 t (a / PGSIZE) = none) :
    Unmapped v (PGSIZE * t) a := by
  rw [Unmapped, sv39_value tree, value]
  rfl

theorem page_within (x y : ℕ) :
    PGSIZE * x ≤ a ∧ a < PGSIZE * y ↔ x ≤ a / PGSIZE ∧ a / PGSIZE < y := by
  rw [Nat.le_div_iff_mul_le (by decide), Nat.div_lt_iff_lt_mul (by decide), Nat.mul_comm PGSIZE,
    Nat.mul_comm PGSIZE]

theorem page_plus (x : ℕ) {k : ℕ} (small : k < PGSIZE) : (PGSIZE * x + k) / PGSIZE = x := by
  rw [Nat.mul_add_div (by decide), Nat.div_eq_of_lt small, Nat.add_zero]

theorem offset_plus (x : ℕ) {k : ℕ} (small : k < PGSIZE) : (PGSIZE * x + k) % PGSIZE = k := by
  rw [Nat.mul_add_mod, Nat.mod_eq_of_lt small]

theorem kernelEntry_eq (e tr u : ℕ) : kernelEntry e tr u =
    if u = 2 ^ 26 - 1 then some (tr * 1024 + 11)
    else if e ≤ u ∧ u < 557056 then some (u * 1024 + 7)
    else if 524288 ≤ u ∧ u < e then some (u * 1024 + 11)
    else if 49152 ≤ u ∧ u < 50176 then some (u * 1024 + 7)
    else if u = 65537 then some (u * 1024 + 7)
    else if u = 65536 then some (u * 1024 + 7)
    else none := rfl

theorem kernelRange_iff : KernelRange a ↔ (524288 ≤ a / PGSIZE ∧ a / PGSIZE < 557056) ∨
    a / PGSIZE = 65536 ∨ a / PGSIZE = 65537 ∨ (49152 ≤ a / PGSIZE ∧ a / PGSIZE < 50176) ∨
    a / PGSIZE = 2 ^ 26 - 1 ∨ ∃ i < NPROC, a / PGSIZE = stackPage i := by
  have page : ∀ x, PGSIZE * x ≤ a ∧ a < PGSIZE * x + PGSIZE ↔ a / PGSIZE = x := fun x =>
    (page_within x (x + 1)).trans (by omega)
  refine or_congr (page_within 524288 557056) (or_congr (page 65536) (or_congr (page 65537)
    (or_congr (page_within 49152 50176) (or_congr (page TRAMPOLINEPG) ?_))))
  refine exists_congr fun i => and_congr_right fun _ => ?_
  rw [KSTACK_eq, page]

/-- No stack lies below the upper gigabyte. -/
theorem stackPage_high {i : ℕ} (small : i < NPROC) :
    TRAMPOLINEPG - 2 * NPROC ≤ stackPage i ∧ stackPage i < TRAMPOLINEPG := by
  simp only [stackPage, TRAMPOLINEPG, NPROC] at *
  omega

theorem KernelPages.low (pages : KernelPages v t e tr frames) (small : u < 557056) :
    Radix.value pteCoding v.mem 2 t u = kernelEntry e tr u := by
  refine pages.other u (by omega) fun i low same => ?_
  have high := (stackPage_high low).1
  simp only [TRAMPOLINEPG, NPROC] at high
  omega

theorem KernelPages.space (pages : KernelPages v t e tr frames)
    (tree : Radix.Tree pteCoding v.mem 2 t S)
    (text : L.etext = PGSIZE * e) (base : L.trampoline = PGSIZE * tr)
    (above : 524288 < e) (below : e < 557056) (under : tr < e) :
    KernelSpace L v (PGSIZE * t) frames := by
  have self : ∀ a, a / PGSIZE < 557056 → ∀ perm, perm ||| PTE_V < 1024 →
      kernelEntry e tr (a / PGSIZE) = some (a / PGSIZE * 1024 + (perm ||| PTE_V)) →
      MappedTo v (PGSIZE * t) a a perm := fun a small perm flags entry =>
    MappedTo.ofSelf tree ((pages.low small).trans entry) small flags
  refine ⟨fun a low high => ?_, fun a low high => ?_, fun a low high => ?_, fun a low high => ?_,
    fun a low high => ?_, fun k small => ?_, fun i small => ?_, fun a small outside => ?_⟩
  · rw [text] at high
    obtain ⟨first, last⟩ := (page_within 524288 e).mp ⟨low, high⟩
    refine self a (by omega) _ (by decide) ?_
    rw [kernelEntry_eq, if_neg (by omega), if_neg (by omega), if_pos ⟨first, last⟩]
    rfl
  · rw [text] at low
    obtain ⟨first, last⟩ := (page_within e 557056).mp ⟨low, high⟩
    refine self a last _ (by decide) ?_
    rw [kernelEntry_eq, if_neg (by omega), if_pos ⟨first, last⟩]
    rfl
  · obtain ⟨first, last⟩ := (page_within 65536 65537).mp ⟨low, high⟩
    refine self a (by omega) _ (by decide) ?_
    rw [kernelEntry_eq, if_neg (by omega), if_neg (by omega), if_neg (by omega),
      if_neg (by omega), if_neg (by omega), if_pos (by omega)]
    rfl
  · obtain ⟨first, last⟩ := (page_within 65537 65538).mp ⟨low, high⟩
    refine self a (by omega) _ (by decide) ?_
    rw [kernelEntry_eq, if_neg (by omega), if_neg (by omega), if_neg (by omega),
      if_neg (by omega), if_pos (by omega)]
    rfl
  · obtain ⟨first, last⟩ := (page_within 49152 50176).mp ⟨low, high⟩
    refine self a (by omega) _ (by decide) ?_
    rw [kernelEntry_eq, if_neg (by omega), if_neg (by omega), if_neg (by omega),
      if_pos (by omega)]
    rfl
  · have page : (TRAMPOLINE + k) / PGSIZE = TRAMPOLINEPG := page_plus TRAMPOLINEPG small
    have offset : (TRAMPOLINE + k) % PGSIZE = k := offset_plus TRAMPOLINEPG small
    have value := pages.other TRAMPOLINEPG (by decide) fun i low same =>
      absurd (stackPage_high low).2 (by omega)
    rw [kernelEntry, if_pos rfl] at value
    have mapped : MappedTo v (PGSIZE * t) (TRAMPOLINE + k) (PGSIZE * tr + (TRAMPOLINE + k) % PGSIZE)
        (PTE_R ||| PTE_X) :=
      MappedTo.ofValue tree (by rw [page, value]; rfl) (by omega) (by decide)
    rwa [offset, ← base] at mapped
  · obtain ⟨f, found⟩ : ∃ f, frames[i]? = some f := by
      rw [← pages.length] at small
      exact ⟨_, List.getElem?_eq_getElem small⟩
    obtain ⟨low, value⟩ := pages.stack i f found
    refine ⟨f, found, fun k inside => ?_⟩
    have mapped : MappedTo v (PGSIZE * t) (KSTACK i + k) (PGSIZE * f + (KSTACK i + k) % PGSIZE)
        (PTE_R ||| PTE_W) :=
      MappedTo.ofValue tree (by rw [KSTACK_eq, page_plus _ inside, value]; rfl) low (by decide)
    rwa [KSTACK_eq, offset_plus _ inside, ← KSTACK_eq] at mapped
  · obtain ⟨-, low⟩ := (page_within 0 (2 ^ 27)).mp ⟨Nat.zero_le a, small⟩
    simp only [kernelRange_iff, not_or, not_exists, not_and] at outside
    obtain ⟨ram, uart, virtio, plic, trampoline, stack⟩ := outside
    refine Unmapped.ofValue tree ?_
    rw [pages.other _ low stack, kernelEntry_eq, if_neg trampoline, if_neg (by omega),
      if_neg (by omega), if_neg (by omega), if_neg virtio, if_neg uart]

/-- The pages on both sides of a stack stay unmapped. -/
theorem KernelSpace.guards {kpg i k : ℕ} (space : KernelSpace L v kpg frames) (few : i < NPROC)
    (small : k < PGSIZE) :
    Unmapped v kpg (KSTACK i - PGSIZE + k) ∧ Unmapped v kpg (KSTACK i + PGSIZE + k) := by
  have high := stackPage_high few
  simp only [TRAMPOLINEPG, NPROC] at high few
  have odd : ∀ j < 64, stackPage j = 2 ^ 26 - 1 - (j + 1) * 2 := fun _ _ => rfl
  have here := odd i few
  have free : ∀ u, u = stackPage i - 1 ∨ u = stackPage i + 1 → Unmapped v kpg (PGSIZE * u + k) := by
    intro u beside
    refine space.nothing _ ?_ ?_
    · simp only [PGSIZE] at small ⊢
      omega
    · rw [kernelRange_iff, page_plus u small]
      rintro (_ | _ | _ | _ | _ | ⟨j, low, same⟩)
      any_goals omega
      have there := odd j low
      simp only [NPROC] at low
      omega
  rw [KSTACK_eq]
  refine ⟨?_, ?_⟩
  · rw [show PGSIZE * stackPage i - PGSIZE = PGSIZE * (stackPage i - 1) by rw [Nat.mul_sub_one]]
    exact free _ (.inl rfl)
  · exact free (stackPage i + 1) (.inr rfl)

/-- Whatever is mapped is read-only code or data that is not code, for the supervisor alone. -/
theorem KernelSpace.rights {kpg level pte : ℕ} (space : KernelSpace L v kpg frames)
    (small : a < 2 ^ 39) (found : sv39 v.mem (a / PGSIZE) 2 kpg = some (level, pte)) :
    PTE_FLAGS pte = PTE_R ||| PTE_X ||| PTE_V ∨ PTE_FLAGS pte = PTE_R ||| PTE_W ||| PTE_V := by
  have read : ∀ {pa perm}, MappedTo v kpg a pa perm → PTE_FLAGS pte = perm ||| PTE_V := by
    rintro pa perm ⟨pte', found', -, flags⟩
    obtain ⟨-, rfl⟩ : 0 = level ∧ pte' = pte := by simpa [found] using found'.symm
    exact flags
  by_cases inside : KernelRange a
  · rcases inside with ⟨low, high⟩ | ⟨low, high⟩ | ⟨low, high⟩ | ⟨low, high⟩ | ⟨low, high⟩ |
      ⟨i, few, low, high⟩
    · rcases lt_or_ge a L.etext with text | data
      · exact .inl (read (space.text a low text))
      · exact .inr (read (space.data a data high))
    · exact .inr (read (space.uart a low high))
    · exact .inr (read (space.virtio a low high))
    · exact .inr (read (space.plic a low high))
    · have mapped := space.trampoline (a - TRAMPOLINE) (by omega)
      rw [Nat.add_sub_cancel' low] at mapped
      exact .inl (read mapped)
    · obtain ⟨f, -, mapped⟩ := space.kstacks i few
      have at_ := mapped (a - KSTACK i) (by omega)
      rw [Nat.add_sub_cancel' low] at at_
      exact .inr (read at_)
  · rw [space.nothing a small inside] at found
    exact absurd found (by simp)

/-- No translation allows both writing and execution, and none allows user access. -/
def Exclusive (v : Vm) (kpg : ℕ) : Prop :=
  ∀ a < 2 ^ 39, ∀ level pte, sv39 v.mem (a / PGSIZE) 2 kpg = some (level, pte) →
    ¬ (pte &&& PTE_W ≠ 0 ∧ pte &&& PTE_X ≠ 0) ∧ pte &&& PTE_U = 0

theorem KernelSpace.exclusive {kpg : ℕ} (space : KernelSpace L v kpg frames) :
    Exclusive v kpg := by
  intro a small level pte found
  have bits : ∀ mask < 1024, pte &&& mask = PTE_FLAGS pte &&& mask := by
    intro mask low
    have split : (pte / 1024 * 1024 + pte % 1024) &&& mask = (pte % 1024) &&& mask :=
      entry_and (pte / 1024) low
    rwa [Nat.div_add_mod'] at split
  rw [bits PTE_W (by decide), bits PTE_X (by decide), bits PTE_U (by decide)]
  rcases space.rights small found with flags | flags <;> rw [flags] <;> decide

end Pages

/-- With enough free pages `kvmmake` returns, and the table maps the kernel's ranges and nothing
else. -/
theorem kvmmake_translates (free : FreeList L v l) (aligned : L.etext % PGSIZE = 0)
    (enough : kvmCost L < l.length) :
    ∃ kpg v' l' frames, kvmmake L v = .ok (kpg, v') ∧ KernelSpace L v' kpg frames ∧
      frames.length = NPROC ∧ frames.Nodup ∧ FreeList L v' l' ∧
      (∀ f ∈ frames, f ∈ l ∧ f ∉ l' ∧ ¬ TablePage v'.mem kpg f) ∧
      (∀ i < NPROC, ∀ k < PGSIZE, Unmapped v' kpg (KSTACK i - PGSIZE + k) ∧
        Unmapped v' kpg (KSTACK i + PGSIZE + k)) ∧ Exclusive v' kpg := by
  obtain ⟨e, text⟩ : ∃ e, L.etext = PGSIZE * e := Nat.dvd_of_mod_eq_zero aligned
  obtain ⟨tr, base⟩ : ∃ tr, L.trampoline = PGSIZE * tr := Nat.dvd_of_mod_eq_zero L.trampoline_aligned
  have made : Sat (kvmmake L) v (fun _ => False) fun kpg v' => ∃ l' frames,
      KernelSpace L v' kpg frames ∧ frames.length = NPROC ∧ frames.Nodup ∧ FreeList L v' l' ∧
        ∀ f ∈ frames, f ∈ l ∧ f ∉ l' ∧ ¬ TablePage v'.mem kpg f := by
    obtain ⟨page, listed⟩ := List.exists_mem_of_ne_nil l (by rintro rfl; simp at enough)
    obtain ⟨above, below, under⟩ := text_pages text base (free.managed page listed)
    refine kvmmake_ranges free text base enough ?_
    intro v₁ t S l₁ table values room sub
    have blank : ∀ k < NPROC, Radix.value pteCoding v₁.mem 2 t (stackPage (0 + k)) = none := by
      intro k few
      have high := stackPage_high few
      simp only [TRAMPOLINEPG, NPROC] at high
      rw [Nat.zero_add, values _ (by omega), kernelEntry_eq, if_neg (by omega), if_neg (by omega),
        if_neg (by omega), if_neg (by omega), if_neg (by omega), if_neg (by omega)]
    refine Sat.bind (table.procMapstacks (by omega) blank room) ?_
    rintro _ v₂ ⟨frames, inner, l₂, length, table₂, list, placed, others⟩
    have distinct := list.nodup_iff.mp table.nodup
    rw [List.nodup_append', List.disjoint_append_right] at distinct
    obtain ⟨nodup, -, inside, outside⟩ := distinct
    have pages : KernelPages v₂ t e tr frames := by
      refine ⟨length, fun i f found => ?_, fun u small clear => ?_⟩
      · obtain ⟨managed, value⟩ := placed i f found
        rw [Nat.zero_add] at value
        exact ⟨managed.lt, value⟩
      · rw [others u small fun k few => by rw [Nat.zero_add]; exact clear k few]
        exact values u small
    have space := pages.space table₂.tree text base above below under
    refine Sat.pure ⟨l₂, frames, space, length, nodup, table₂.toFreeList, fun f member => ?_⟩
    have taken : f ∈ l₁ := list.mem_iff.mpr (List.mem_append_left _ member)
    refine ⟨sub f taken, outside member, fun page => ?_⟩
    rcases tablePage_mem table₂.tree page with old | new
    · exact table.apart f taken old
    · exact inside member new
  obtain ⟨kpg, v', returned, l', frames, space, length, nodup, free', own⟩ := made.returns
  exact ⟨kpg, v', l', frames, returned, space, length, nodup, free', own,
    fun i few k small => space.guards few small, space.exclusive⟩

/-- Four hundred free pages are enough for the smallest kernel. -/
theorem kvmmake_translates_small : ∃ kpg v' l' frames,
    kvmmake smallLayout (bootVm 400) = .ok (kpg, v') ∧
      KernelSpace smallLayout v' kpg frames ∧ frames.length = NPROC ∧ frames.Nodup ∧
      FreeList smallLayout v' l' ∧
      (∀ f ∈ frames, f ∈ List.range' FIRSTPG 400 ∧ f ∉ l' ∧ ¬ TablePage v'.mem kpg f) ∧
      (∀ i < NPROC, ∀ k < PGSIZE, Unmapped v' kpg (KSTACK i - PGSIZE + k) ∧
        Unmapped v' kpg (KSTACK i + PGSIZE + k)) ∧ Exclusive v' kpg := by
  have table := bootVm_table (n := 1) (show 400 ≤ 32756 by omega) (by decide) (by decide)
  refine kvmmake_translates table.toFreeList (by decide) ?_
  rw [List.length_range']
  decide

end HaloOS
