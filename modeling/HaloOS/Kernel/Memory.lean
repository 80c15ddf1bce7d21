import HaloOS.Kernel.Runs
import Mathlib.Data.Set.Card

/-! Memory over whole runs: the address space of every process is exact, no two processes
share a page, and, as long as nothing is taken apart by `freeproc`, no page is lost. -/

namespace HaloOS

open Lib

variable {L : Layout} {own own' : ℕ → Owner} {l l' : List ℕ} {k k' : Kernel} {p q : Fin NPROC}
  {t n : ℕ} {K : ℕ → Prop} {e : Event}

/-- The virtual pages below `p->sz`. -/
def Kernel.userPages (k : Kernel) (p : Fin NPROC) : ℕ := PGROUNDUP (k.procs p).sz / PGSIZE

/-- What the hardware finds for virtual page `u` of a process. -/
def Kernel.translate (k : Kernel) (p : Fin NPROC) (u : ℕ) : Option (ℕ × ℕ) :=
  sv39 k.vm.mem u 2 (k.procs p).pagetable

/-- The valid leaves of the page table of a process are exactly its user pages, each with
a frame of its own, the trampoline and the trapframe. -/
structure Exact (L : Layout) (k : Kernel) (p : Fin NPROC) : Prop where
  user : ∀ u < k.userPages p, ∃ g flags, flags < 1024 ∧ k.translate p u = some (0, g * 1024 + flags)
  frames : ∀ u < k.userPages p, ∀ u' < k.userPages p, ∀ pte pte',
    k.translate p u = some (0, pte) → k.translate p u' = some (0, pte') →
    pte / 1024 = pte' / 1024 → u = u'
  trampoline : k.translate p (TRAMPOLINE / PGSIZE) =
    some (0, PA2PTE L.trampoline ||| (PTE_V ||| PTE_R ||| PTE_X))
  trapframe : k.translate p (TRAPFRAME / PGSIZE) =
    some (0, PA2PTE (k.procs p).trapframe ||| (PTE_V ||| PTE_R ||| PTE_W))
  other : ∀ u < 2 ^ 27, k.userPages p ≤ u → u ≠ TRAMPOLINE / PGSIZE → u ≠ TRAPFRAME / PGSIZE →
    k.translate p u = none

inductive PageKind where
  | table
  | trapframe
  | user

/-- Page `n` belongs to process `p`, as memory shows it. -/
def Kernel.ProcPage (k : Kernel) (p : Fin NPROC) (n : ℕ) : PageKind → Prop
  | .table => TablePage k.vm.mem (k.procs p).pagetable n
  | .trapframe => n = (k.procs p).trapframe / PGSIZE
  | .user => ∃ u < k.userPages p, ∃ pte, k.translate p u = some (0, pte) ∧ n = pte / 1024

/-- The owner of a page that belongs to process `p` with table `t`. -/
def Owner.Of (p t : ℕ) (o : Owner) : PageKind → Prop
  | .table => o = .root p ∨ (∃ i, o = .l1 t i) ∨ ∃ i j, o = .l0 t i j
  | .trapframe => o = .trapframe p
  | .user => ∃ u, o = .user t u

theorem Owner.Of.unique {o : Owner} {p q t s : ℕ} {a b : PageKind} (one : o.Of p t a)
    (two : o.Of q s b) : a = b ∧ (p = q ∨ t = s) := by
  cases a <;> cases b <;> simp only [Owner.Of] at one two
  · rcases one with rfl | ⟨i, rfl⟩ | ⟨i, j, rfl⟩ <;> simp_all
  · subst two
    simp at one
  · obtain ⟨u, rfl⟩ := two
    simp at one
  · subst one
    simp at two
  · subst one
    exact ⟨rfl, .inl (by simpa using two)⟩
  · subst one
    simp at two
  · obtain ⟨u, rfl⟩ := one
    simp at two
  · obtain ⟨u, rfl⟩ := one
    simp at two
  · obtain ⟨u, rfl⟩ := one
    obtain ⟨u', same⟩ := two
    simp only [Owner.user.injEq] at same
    exact ⟨rfl, .inr same.1⟩

/-- The address space that the books record for a process. -/
theorem Ledger.space (books : Books L k own l) (live : (k.procs p).state ≠ .unused) :
    ∃ t f, (k.procs p).pagetable = PGSIZE * t ∧ (k.procs p).trapframe = PGSIZE * f ∧
      own t = .root p ∧ own f = .trapframe p ∧
      Space L k.vm own l t (· < k.userPages p) (topLeaves L f) := by
  obtain ⟨t, f, table, frame, root, trap, tree, maps, -⟩ := books.holds p live
  have few := maps.pages_le (n := pages (k.procs p).sz) books.pool fun _ below => below
  have count : k.userPages p = pages (k.procs p).sz := by
    unfold Kernel.userPages
    rw [PGROUNDUP_eq (by omega), page_number]
  rw [count]
  exact ⟨t, f, table, frame, root, trap, books.pool, tree, maps⟩

/-- What memory shows of a process is what the books record. -/
theorem Ledger.procPage_iff (books : Books L k own l) (live : (k.procs p).state ≠ .unused)
    (table : (k.procs p).pagetable = PGSIZE * t) (kind : PageKind) :
    k.ProcPage p n kind ↔ (own n).Of p t kind := by
  obtain ⟨s, f, table', frame, root, trap, space⟩ := books.space live
  obtain rfl := PGSIZE_inj (table'.symm.trans table)
  cases kind with
  | table =>
    simp only [Kernel.ProcPage, Owner.Of]
    rw [table, space.tree.tablePage_iff space.pool]
    refine or_congr ⟨fun same => same ▸ root, fun here => ?_⟩ Iff.rfl
    obtain bad | ⟨q, same, -, at_⟩ := books.root n p here
    · exact bad.elim
    · obtain rfl : p = q := Fin.ext same
      exact PGSIZE_inj (at_.symm.trans table)
  | trapframe =>
    simp only [Kernel.ProcPage, Owner.Of]
    rw [frame, page_number]
    refine ⟨fun same => same ▸ trap, fun here => ?_⟩
    obtain bad | ⟨q, same, -, at_⟩ := books.trapframe n p here
    · exact bad.elim
    · obtain rfl : p = q := Fin.ext same
      exact PGSIZE_inj (at_.symm.trans frame)
  | user =>
    simp only [Kernel.ProcPage, Owner.Of, Kernel.translate]
    rw [table]
    constructor
    · rintro ⟨u, below, pte, found, rfl⟩
      obtain ⟨g, flags, low, owner, entry⟩ := space.sv39_user below
      rw [found, Option.some.injEq, Prod.mk.injEq] at entry
      refine ⟨u, ?_⟩
      rwa [entry.2, show (g * 1024 + flags) / 1024 = g by omega]
    · rintro ⟨u, owner⟩
      obtain ⟨below, -⟩ := space.maps.user n u owner
      obtain ⟨g, flags, low, owner', entry⟩ := space.sv39_user below
      refine ⟨u, below, _, entry, ?_⟩
      rw [show (g * 1024 + flags) / 1024 = g by omega]
      have first := (space.maps.user n u owner).2
      have second := (space.maps.user g u owner').2
      omega

/-- The books make the address space of a process exact. -/
theorem Ledger.exact (books : Books L k own l) (live : (k.procs p).state ≠ .unused) :
    Exact L k p := by
  obtain ⟨t, f, table, frame, root, trap, space⟩ := books.space live
  have few := space.maps.pages_le (n := k.userPages p) space.pool fun _ below => below
  have above : ∀ u, TRAPFRAMEPG ≤ u → ¬ u < k.userPages p := by
    intro u high
    simp only [TRAPFRAMEPG] at high
    omega
  have aligned : L.trampoline = PGSIZE * (L.trampoline / PGSIZE) := by
    have whole := Nat.div_add_mod L.trampoline PGSIZE
    rw [L.trampoline_aligned] at whole
    exact whole.symm
  have apart : TRAPFRAMEPG ≠ TRAMPOLINEPG := by decide
  constructor
  · intro u below
    obtain ⟨g, flags, low, -, entry⟩ := space.sv39_user below
    exact ⟨g, flags, by omega, by rw [Kernel.translate, table, entry]⟩
  · intro u below u' below' pte pte' found found' same
    unfold Kernel.translate at found found'
    rw [table] at found found'
    obtain ⟨g, flags, low, owner, entry⟩ := space.sv39_user below
    obtain ⟨g', flags', low', owner', entry'⟩ := space.sv39_user below'
    rw [found, Option.some.injEq, Prod.mk.injEq] at entry
    rw [found', Option.some.injEq, Prod.mk.injEq] at entry'
    have equal : g = g' := by omega
    rw [equal, owner'] at owner
    simpa using owner.symm
  · rw [Kernel.translate, table, show TRAMPOLINE / PGSIZE = TRAMPOLINEPG by decide,
      space.sv39_other (by decide) (above _ (by decide)), topLeaves_trampoline, if_neg (by omega)]
    rw [aligned, entry_eq _ (by decide), page_number]
    rfl
  · rw [Kernel.translate, table, frame, show TRAPFRAME / PGSIZE = TRAPFRAMEPG by decide,
      space.sv39_other (by decide) (above _ (le_refl _)), topLeaves_trapframe, if_neg (by omega),
      entry_eq f (by decide)]
    rfl
  · intro u small high first second
    rw [show TRAMPOLINE / PGSIZE = TRAMPOLINEPG by decide] at first
    rw [show TRAPFRAME / PGSIZE = TRAPFRAMEPG by decide] at second
    rw [Kernel.translate, table, space.sv39_other small (by omega), if_pos]
    unfold topLeaves
    rw [Function.update_of_ne second, Function.update_of_ne first]

section Steps

/-- `uvminit` does not notice when it finds one or two pages where it needs three. -/
def Room (k : Kernel) : Event → Prop
  | .userinit => ∀ l, Links k.vm.mem k.vm.freelist l → l.length ≠ 5 ∧ l.length ≠ 6
  | _ => True

/-- The step makes no use of `freeproc`: no dead child is waiting for its parent's `wait`,
and `fork` finds either no slot, no pages for `allocproc` or all the pages it needs. -/
def Thrifty (k : Kernel) : Event → Prop
  | .call p .fork => ∀ l, Links k.vm.mem k.vm.freelist l →
      (∀ q, (k.procs q).state ≠ .unused) ∨ l.length < 4 ∨ forkPages (k.userPages p) ≤ l.length
  | .call p (.wait _) => ∀ q, (k.procs q).parent = some p → (k.procs q).state ≠ .zombie
  | e => Room k e

/-- At boot every page is free or the kernel's. -/
theorem Booted.books (boot : Booted L k l) :
    ∃ own, Books L k own l ∧ Sound (· ∉ l) own := by
  have named : ∀ n, (if n ∈ l then Owner.free else .kernel) = .free ∧ n ∈ l ∨
      (if n ∈ l then Owner.free else .kernel) = .kernel ∧ n ∉ l := by
    intro n
    by_cases member : n ∈ l <;> simp [member]
  refine ⟨fun n => if n ∈ l then .free else .kernel, ⟨⟨boot.links, boot.nodup, ?_, ?_⟩, ?_, ?_, ?_,
    ?_, ?_⟩, ?_⟩
  · intro n
    by_cases member : n ∈ l <;> simp [member]
  · intro n used
    by_cases member : n ∈ l
    · exact boot.managed n member
    · simp [member] at used
  · intro p live
    rw [boot.procs p] at live
    exact absurd rfl live
  · intro n q here
    rcases named n with ⟨free, -⟩ | ⟨kernel, -⟩ <;> simp_all
  · intro n q here
    rcases named n with ⟨free, -⟩ | ⟨kernel, -⟩ <;> simp_all
  · intro n t inner
    by_cases member : n ∈ l <;> simp [member, Owner.under] at inner
  · intro n t held
    rcases named n with ⟨free, -⟩ | ⟨kernel, -⟩ <;> simp_all
  · intro n
    by_cases member : n ∈ l <;> simp [member]

/-- One step keeps the books, and loses no page if it is thrifty. -/
theorem Step.books (step : Step L k e k') (room : Room k e) (books : Books L k own l) :
    ∃ own' l', Books L k' own' l' ∧ (Thrifty k e → Sound K own → Sound K own') := by
  have idle : Quiet k k' → ∃ own' l', Books L k' own' l' ∧
      (Thrifty k e → Sound K own → Sound K own') :=
    fun quiet => ⟨own, l, books.quiet quiet, fun _ sound => sound⟩
  cases step with
  | userinit returns =>
    obtain ⟨own', l', books', sound⟩ := (userinit_spec books (room l books.pool.links)).ok returns
    exact ⟨own', l', books', fun _ => sound⟩
  | @call k' r p c ready returns =>
    have live := ready.ne_unused
    cases c with
    | fork =>
      obtain ⟨own', l', books', sound⟩ := (fork_spec books live).ok returns
      refine ⟨own', l', books', fun thrifty => sound ?_⟩
      obtain ⟨t, f, -, -, -, -, tree, maps, -⟩ := books.holds p live
      have few := maps.pages_le (n := pages (k.procs p).sz) books.pool fun _ below => below
      have enough := thrifty l books.pool.links
      rwa [Kernel.userPages, PGROUNDUP_eq (by omega), page_number] at enough
    | exec path argv =>
      obtain ⟨own', l', books', sound⟩ := (exec_spec books live path argv).ok returns
      exact ⟨own', l', books', fun _ => sound⟩
    | exit status => exact idle ((exit_quiet live status).ok returns)
    | wait addr => exact (wait_spec books live addr).ok returns
    | sysOpen path model => exact idle ((sysOpen_still p path model k).ok returns)
    | sysDup fd => exact idle ((sysDup_still p fd k).ok returns)
    | sysClose fd => exact idle ((sysClose_still p fd k).ok returns)
  | @sched p s ready next =>
    refine idle (quiet_setProc ?_ ⟨rfl, rfl, rfl⟩)
    simp [next.ne_unused, ready.ne_unused]

end Steps

/-- In every state of a run in which `userinit` never starts with five or six free pages,
every address space is exact, pages are not shared, none of them is free, and `fork` and
`exec` stop with none of the panics about page tables. -/
theorem address_spaces_exact {k₀ : Kernel} {l₀ : List ℕ} {past : List Event}
    (boot : Booted L k₀ l₀)
    (run : Trace (fun k e k' => Step L k e k' ∧ Room k e) k₀ past k) :
    (∀ p, (k.procs p).state ≠ .unused → Exact L k p) ∧
    (∀ p q n a b, (k.procs p).state ≠ .unused → (k.procs q).state ≠ .unused →
      k.ProcPage p n a → k.ProcPage q n b → p = q ∧ a = b) ∧
    (∃ l, Links k.vm.mem k.vm.freelist l ∧
      ∀ p n a, (k.procs p).state ≠ .unused → k.ProcPage p n a → n ∉ l) ∧
    ∀ p, (k.procs p).state ≠ .unused → ∀ stop,
      (fork L p k = .error stop → Harmless stop) ∧
      ∀ path argv, exec L p path argv k = .error stop → Harmless stop := by
  obtain ⟨own, l, books⟩ : ∃ own l, Books L k own l := by
    refine run.invariant (fun _ k => ∃ own l, Books L k own l) ?_ ?_
    · obtain ⟨own, books, -⟩ := boot.books
      exact ⟨own, l₀, books⟩
    · rintro - k e k' ⟨own, l, books⟩ ⟨step, room⟩
      obtain ⟨own', l', books', -⟩ := step.books (K := fun _ => True) room books
      exact ⟨own', l', books'⟩
  refine ⟨fun p live => books.exact live, ?_, ⟨l, books.pool.links, ?_⟩, ?_⟩
  · intro p q n a b live live' here here'
    obtain ⟨t, f, table, -, root, -⟩ := books.space live
    obtain ⟨t', f', table', -, root', -⟩ := books.space live'
    rw [books.procPage_iff live table] at here
    rw [books.procPage_iff live' table'] at here'
    obtain ⟨kind, same | same⟩ := here.unique here'
    · exact ⟨Fin.ext same, kind⟩
    · rw [same, root'] at root
      exact ⟨Fin.ext (by simpa using root.symm), kind⟩
  · intro p n a live here member
    obtain ⟨t, f, table, -, root, -⟩ := books.space live
    rw [books.procPage_iff live table, (books.pool.free n).mp member] at here
    cases a <;> simp [Owner.Of] at here
  · intro p live stop
    exact ⟨(fork_spec (K := fun _ => True) books live).error,
      fun path argv => (exec_spec (K := fun _ => True) books live path argv).error⟩

theorem address_spaces_exact_userinit :
    ∃ k, Trace (fun k e k' => Step smallLayout k e k' ∧ Room k e) (bootKernel 15) [.userinit] k ∧
      (k.procs 0).state ≠ .unused ∧ k.userPages 0 = 1 ∧ Exact smallLayout k 0 := by
  have boot := bootKernel_booted 15 (by decide)
  obtain ⟨_, k, returns, facts⟩ := outcome_some (m := execAll smallLayout [.userinit])
    (k := bootKernel 15) (f := fun k => ((k.procs 0).state, k.userPages 0)) (b := (.runnable, 1))
    (by decide +kernel)
  have step := (execAll_trace returns).of_single
  obtain ⟨state, size⟩ : (k.procs 0).state = .runnable ∧ k.userPages 0 = 1 := by simpa using facts
  have live : (k.procs 0).state ≠ .unused := by simp [state]
  have room : Room (bootKernel 15) .userinit := by
    intro l links
    rw [links.unique boot.links, List.length_range']
    decide
  have run : Trace (fun k e k' => Step smallLayout k e k' ∧ Room k e) (bootKernel 15) [.userinit] k :=
    .single ⟨step, room⟩
  exact ⟨k, run, live, size, (address_spaces_exact boot run).1 0 live⟩

/-- With five free pages `userinit` returns and leaves a runnable process whose page 0
is not mapped. -/
theorem userinit_unmapped :
    ∃ k, Booted smallLayout (bootKernel 5) (List.range' FIRSTPG 5) ∧
      Trace (Step smallLayout) (bootKernel 5) [.userinit] k ∧
      (k.procs 0).state = .runnable ∧ ¬ Exact smallLayout k 0 := by
  obtain ⟨_, k, returns, facts⟩ := outcome_some (m := execAll smallLayout [.userinit])
    (k := bootKernel 5) (f := fun k => ((k.procs 0).state, k.userPages 0, k.translate 0 0))
    (b := (.runnable, 1, none)) (by decide +kernel)
  obtain ⟨state, size, hole⟩ : (k.procs 0).state = .runnable ∧ k.userPages 0 = 1 ∧
      k.translate 0 0 = none := by simpa using facts
  refine ⟨k, bootKernel_booted 5 (by decide), execAll_trace returns, state, fun exact => ?_⟩
  obtain ⟨g, flags, -, entry⟩ := exact.user 0 (by omega)
  simp [hole] at entry

/-- A page that memory shows to belong to some process that has not been freed. -/
def Kernel.Owned (k : Kernel) (n : ℕ) : Prop :=
  ∃ p kind, (k.procs p).state ≠ .unused ∧ k.ProcPage p n kind

theorem Thrifty.room (thrifty : Thrifty k e) : Room k e := by
  cases e with
  | userinit => exact thrifty
  | call p c => trivial
  | sched p s => trivial

/-- The owned pages are those with an owner other than the kernel and the free list. -/
theorem Ledger.owned_iff (books : Books L k own l) (sound : Sound K own) :
    k.Owned n ↔ own n ≠ .free ∧ own n ≠ .kernel := by
  constructor
  · rintro ⟨p, kind, live, here⟩
    obtain ⟨t, f, table, -⟩ := books.space live
    rw [books.procPage_iff live table] at here
    constructor <;> intro owner <;> rw [owner] at here <;> cases kind <;> simp [Owner.Of] at here
  · rintro ⟨used, foreign⟩
    have under : ∀ t kind, (∀ q : ℕ, (own n).Of q t kind) → (own n).under t → k.Owned n := by
      intro t kind belongs inner
      obtain ⟨q, root⟩ := books.under n t inner
      obtain bad | ⟨p, -, live, table⟩ := books.root t q root
      · exact bad.elim
      · exact ⟨p, kind, live, (books.procPage_iff live table kind).mpr (belongs p)⟩
    cases owner : own n with
    | kernel => exact absurd owner foreign
    | free => exact absurd owner used
    | lost => exact absurd owner (sound n).2
    | held t => exact absurd owner (books.settled n t)
    | trapframe q =>
      obtain bad | ⟨p, rfl, live, frame⟩ := books.trapframe n q owner
      · exact bad.elim
      · obtain ⟨t, f, table, -⟩ := books.space live
        exact ⟨p, .trapframe, live, (books.procPage_iff live table _).mpr owner⟩
    | root q =>
      obtain bad | ⟨p, rfl, live, table⟩ := books.root n q owner
      · exact bad.elim
      · exact ⟨p, .table, live, (books.procPage_iff live table _).mpr (.inl owner)⟩
    | l1 t i => exact under t .table (fun q => .inr (.inl ⟨i, owner⟩)) (by rw [owner]; rfl)
    | l0 t i j => exact under t .table (fun q => .inr (.inr ⟨i, j, owner⟩)) (by rw [owner]; rfl)
    | user t u => exact under t .user (fun q => ⟨u, owner⟩) (by rw [owner]; rfl)

/-- In a run that never uses `freeproc` the pages free at boot are at any time either on
the free list, once, or owned by a process. -/
theorem pages_accounted {k₀ : Kernel} {l₀ : List ℕ} {past : List Event} (boot : Booted L k₀ l₀)
    (run : Trace (fun k e k' => Step L k e k' ∧ Thrifty k e) k₀ past k) :
    ∃ l, Links k.vm.mem k.vm.freelist l ∧ l.Nodup ∧
      (∀ n, n ∈ l ↔ n ∈ l₀ ∧ ¬ k.Owned n) ∧ (∀ n, k.Owned n → n ∈ l₀) ∧
      l.length + {n | k.Owned n}.ncard = l₀.length := by
  obtain ⟨own, l, books, sound⟩ : ∃ own l, Books L k own l ∧ Sound (· ∉ l₀) own := by
    refine run.invariant (fun _ k => ∃ own l, Books L k own l ∧ Sound (· ∉ l₀) own) ?_ ?_
    · obtain ⟨own, books, sound⟩ := boot.books
      exact ⟨own, l₀, books, sound⟩
    · rintro - k e k' ⟨own, l, books, sound⟩ ⟨step, thrifty⟩
      obtain ⟨own', l', books', kept⟩ := step.books thrifty.room books
      exact ⟨own', l', books', kept thrifty sound⟩
  have kernel : ∀ n, own n = .kernel ↔ n ∉ l₀ := fun n => (sound n).1
  have owned : ∀ n, k.Owned n ↔ own n ≠ .free ∧ own n ≠ .kernel :=
    fun n => books.owned_iff sound
  have free : ∀ n, n ∈ l ↔ n ∈ l₀ ∧ ¬ k.Owned n := by
    intro n
    rw [books.pool.free n, owned n]
    have known := kernel n
    constructor
    · intro isFree
      rw [isFree] at known
      exact ⟨by simpa using known, fun bad => bad.1 isFree⟩
    · rintro ⟨member, not⟩
      by_contra used
      exact not ⟨used, fun isKernel => (known.mp isKernel) member⟩
  have inside : ∀ n, k.Owned n → n ∈ l₀ := by
    intro n here
    by_contra outside
    exact ((owned n).mp here).2 ((kernel n).mpr outside)
  refine ⟨l, books.pool.links, books.pool.nodup, free, inside, ?_⟩
  have split : {n | k.Owned n} = (l₀.toFinset \ l.toFinset : Finset ℕ) := by
    ext n
    simp only [Set.mem_setOf_eq, Finset.coe_sdiff, List.coe_toFinset, Set.mem_diff]
    constructor
    · exact fun here => ⟨inside n here, fun member => ((free n).mp member).2 here⟩
    · rintro ⟨member, not⟩
      by_contra bad
      exact not ((free n).mpr ⟨member, bad⟩)
  have subset : l.toFinset ⊆ l₀.toFinset := by
    intro n member
    rw [List.mem_toFinset] at member ⊢
    exact ((free n).mp member).1
  rw [split, Set.ncard_coe_finset, Finset.card_sdiff_of_subset subset,
    List.toFinset_card_of_nodup books.pool.nodup, List.toFinset_card_of_nodup boot.nodup]
  have fewer := Finset.card_le_card subset
  rw [List.toFinset_card_of_nodup books.pool.nodup, List.toFinset_card_of_nodup boot.nodup] at fewer
  omega

theorem pages_accounted_userinit :
    ∃ k l, Trace (fun k e k' => Step smallLayout k e k' ∧ Thrifty k e) (bootKernel 15)
      [.userinit] k ∧ Links k.vm.mem k.vm.freelist l ∧ l.length + {n | k.Owned n}.ncard = 15 := by
  have boot := bootKernel_booted 15 (by decide)
  obtain ⟨_, k, returns, -⟩ := outcome_some (m := execAll smallLayout [.userinit])
    (k := bootKernel 15) (f := fun k => (k.procs 0).state) (b := .runnable) (by decide +kernel)
  have thrifty : Thrifty (bootKernel 15) .userinit := by
    intro l links
    rw [links.unique boot.links, List.length_range']
    decide
  have run : Trace (fun k e k' => Step smallLayout k e k' ∧ Thrifty k e) (bootKernel 15)
      [.userinit] k := .single ⟨(execAll_trace returns).of_single, thrifty⟩
  obtain ⟨l, links, -, -, -, total⟩ := pages_accounted boot run
  rw [List.length_range'] at total
  exact ⟨k, l, run, links, total⟩

instance decidableLinks (mem : ℕ → ℕ) : ∀ head l, Decidable (Links mem head l)
  | head, [] => inferInstanceAs (Decidable (head = 0))
  | head, n :: rest =>
    have := decidableLinks mem (mem (512 * n)) rest
    inferInstanceAs (Decidable (0 < n ∧ head = PGSIZE * n ∧ Links mem (mem (512 * n)) rest))

/-- The root page of a child that has exited and has been reaped does not come back: `wait`
frees the slot and returns the trapframe only. -/
theorem wait_loses_table :
    ∃ k k' n, Trace (Step smallLayout) (bootKernel 15)
        [.userinit, .call 0 .fork, .call 1 (.exit 0)] k ∧
      Step smallLayout k (.call 0 (.wait 0)) k' ∧
      (k.procs 1).state = .zombie ∧ (k'.procs 1).state = .unused ∧
      k.ProcPage 1 n .table ∧ ∀ l, Links k'.vm.mem k'.vm.freelist l → n ∉ l := by
  obtain ⟨_, k, returns, facts⟩ := outcome_some
    (m := execAll smallLayout [.userinit, .call 0 .fork, .call 1 (.exit 0)]) (k := bootKernel 15)
    (f := fun k => ((k.procs 1).state, (k.procs 1).pagetable,
      outcome ((Event.call 0 (.wait 0)).exec smallLayout) k fun k' =>
        ((k'.procs 1).state, decide (Links k'.vm.mem k'.vm.freelist [524307, 524314]))))
    (b := (.zombie, PGSIZE * 524308, some (.unused, true))) (by decide +kernel)
  simp only [Prod.mk.injEq] at facts
  obtain ⟨zombie, table, later⟩ := facts
  obtain ⟨_, k', last, facts'⟩ := outcome_some later
  simp only [Prod.mk.injEq, decide_eq_true_eq] at facts'
  obtain ⟨unused, links⟩ := facts'
  refine ⟨k, k', 524308, execAll_trace returns, Event.exec_step last, zombie, unused, .inl ?_, ?_⟩
  · rw [table, page_number]
  · intro l links'
    rw [links'.unique links]
    decide

end HaloOS
