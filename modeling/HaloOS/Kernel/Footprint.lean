import HaloOS.Kernel.Forking

/-! What a system call does to its caller. The caller finds its registers, its page table and its memory as
they were, but for the result, the program counter and the buffer it named. -/

namespace HaloOS

open Lib

variable {L : Layout} {own own' : ℕ → Owner} {l : List ℕ} {k k' k₀ : Kernel} {p q : Fin NPROC} {v v' : Vm}
  {s t f u a : ℕ} {S F A : ℕ → Prop} {data data' : Mem} {flags : ℕ → ℕ}

section Contents

/-- Every address space has its contents. -/
theorem Space.image (space : Space L v own l t S (topLeaves L f)) : ∃ data flags, Image v own t data flags := by
  classical
  have entry : ∀ g u, own g = .user t u → leaf v.mem t u = g * 1024 +
      if ∃ g, own g = .user t u then leaf v.mem t u % 1024 else 31 := by
    intro g u owner
    rw [if_pos ⟨g, owner⟩]
    have either := (space.maps.user g u owner).2
    omega
  obtain ⟨data, image⟩ := Image.exists space.maps entry fun u none => if_neg (not_exists.mpr none)
  exact ⟨data, _, image⟩

variable (space : Space L v own l t S (topLeaves L f)) (image : Image v own t data flags)
  (space' : Space L v' own l t S (topLeaves L f)) (image' : Image v' own t data' flags)

include space image

/-- A page as the hardware finds it. -/
theorem Image.page (small : u < 2 ^ 27) :
    (∃ g, own g = .user t u ∧ PTE2PA (g * 1024 + flags u) = PGSIZE * g ∧
      HaloOS.sv39 v.mem u 2 (PGSIZE * t) = some (0, g * 1024 + flags u)) ∨
    (¬ S u ∧ HaloOS.sv39 v.mem u 2 (PGSIZE * t) =
      if topLeaves L f u = 0 then none else some (0, topLeaves L f u)) := by
  by_cases inside : S u
  · obtain ⟨g, owner⟩ := space.maps.frame u inside
    have either := (space.maps.user g u owner).2
    have entry := image.entry g u owner
    have flag : flags u = 31 ∨ flags u = 15 := by omega
    have valid : flags u &&& PTE_V ≠ 0 := by rcases flag with flag | flag <;> rw [flag] <;> decide
    exact .inl (image.sv39 space inside (by omega) valid)
  · exact .inr ⟨inside, space.sv39_other small inside⟩

include space' image'

/-- Two images of one table differ in the bytes only. -/
theorem Image.sv39_same (small : u < 2 ^ 27) :
    HaloOS.sv39 v'.mem u 2 (PGSIZE * t) = HaloOS.sv39 v.mem u 2 (PGSIZE * t) := by
  rcases image.page space small with ⟨g, owner, -, entry⟩ | ⟨outside, entry⟩
  · rcases image'.page space' small with ⟨g', owner', -, entry'⟩ | ⟨outside, -⟩
    · rw [entry, entry', space.maps.frame_unique owner owner']
    · exact absurd (space.maps.user g u owner).1 outside
  · rw [entry, space'.sv39_other small outside]

theorem Image.userAt_same (small : a < 2 ^ 39) (same : data' a = data a) :
    HaloOS.userAt v' (PGSIZE * t) a = HaloOS.userAt v (PGSIZE * t) a := by
  have low : a / PGSIZE < 2 ^ 27 := by
    simp only [PGSIZE]
    omega
  rcases image.page space low with ⟨g, owner, page, entry⟩ | ⟨outside, -⟩
  · have entry' := image.sv39_same space space' image' low
    have split : PGSIZE * (a / PGSIZE) + a % PGSIZE = a := Nat.div_add_mod a PGSIZE
    have inside : a % PGSIZE < PGSIZE := Nat.mod_lt a (by decide)
    have byte := image.byte g _ owner _ inside
    have byte' := image'.byte g _ owner _ inside
    rw [split] at byte byte'
    unfold HaloOS.userAt HaloOS.translate
    simp only [entry', entry, page]
    split
    · simp only [Option.map_some, byte, byte', same]
    · rfl
  · rw [space'.userAt_outside small outside, space.userAt_outside small outside]

end Contents

section Heeds

/-- The caller's record but for its descriptors, its trapframe but for the words in `F`, its translations, and
its memory outside `A` are as they were. -/
structure Heeds (F A : ℕ → Prop) (p : Fin NPROC) (k k' : Kernel) : Prop where
  record : ∃ openfs, k'.procs p = { k.procs p with openfs }
  frame : ∀ i < 512, ¬ F i →
    k'.vm.load ((k.procs p).trapframe + 8 * i) = k.vm.load ((k.procs p).trapframe + 8 * i)
  table : ∀ u < 2 ^ 27, k'.translate p u = k.translate p u
  memory : ∀ a < 2 ^ 39, ¬ A a → userAt k'.vm (k.procs p).pagetable a = userAt k.vm (k.procs p).pagetable a

theorem Heeds.refl : Heeds F A p k k := ⟨⟨_, rfl⟩, fun _ _ _ => rfl, fun _ _ => rfl, fun _ _ _ => rfl⟩

theorem Heeds.trans {k'' : Kernel} (first : Heeds F A p k k') (second : Heeds F A p k' k'') : Heeds F A p k k'' := by
  obtain ⟨openfs, record⟩ := first.record
  obtain ⟨openfs', record'⟩ := second.record
  have table : (k'.procs p).pagetable = (k.procs p).pagetable := by rw [record]
  have page : (k'.procs p).trapframe = (k.procs p).trapframe := by rw [record]
  refine ⟨⟨openfs', by rw [record', record]⟩, fun i small kept => ?_, fun u small => ?_, fun a small outside => ?_⟩
  · rw [← page, second.frame i small kept, page, first.frame i small kept]
  · rw [second.table u small, first.table u small]
  · rw [← table, second.memory a small outside, table, first.memory a small outside]

/-- Work that leaves memory alone. -/
theorem Heeds.quiet (vm : k'.vm = k.vm) (record : ∃ openfs, k'.procs p = { k.procs p with openfs }) : Heeds F A p k k' := by
  refine ⟨record, fun _ _ _ => by rw [vm], fun u _ => ?_, fun _ _ _ => by rw [vm]⟩
  obtain ⟨openfs, same⟩ := record
  unfold Kernel.translate
  rw [vm, same]

theorem Heeds.mono {B : ℕ → Prop} (heeds : Heeds F A p k k') (more : ∀ a < 2 ^ 39, A a → B a) : Heeds F B p k k' :=
  ⟨heeds.record, heeds.frame, heeds.table, fun a small outside => heeds.memory a small fun inside => outside (more a small inside)⟩

/-- A process that is left alone. -/
theorem Undisturbed.heeds (undisturbed : Undisturbed p k k') (record : k'.procs p = k.procs p) : Heeds F A p k k' :=
  ⟨⟨_, record⟩, fun i small _ => undisturbed.frame i small, undisturbed.table, fun a small _ => by
    have same := undisturbed.memory a small
    rwa [record] at same⟩

/-- `copyoutpg` to the caller: nothing but the stretch changes, and when it returns 0 user code finds
the bytes there. -/
theorem Ledger.copyout_heeds (books : Books L k own l) (live : (k.procs p).state ≠ .unused) (dst : ℕ) (bytes : List Byte) :
    Sat (mio (HaloOS.copyoutpg (k.procs p).pagetable dst bytes)) k Harmless fun ok k' =>
      Books L k' own l ∧ k'.procs = k.procs ∧ Heeds F (fun a => dst ≤ a ∧ a < dst + bytes.length) p k k' ∧
        (ok = true → ∀ j < bytes.length, dst + j < 2 ^ 39 ∧
          userAt k'.vm (k.procs p).pagetable (dst + j) = some (bytes.getD j 0)) := by
  obtain ⟨t, f, table, frame, root, trap, tree, maps, whole⟩ := books.holds p live
  have space : Space L k.vm own l t (· < pages (k.procs p).sz) (topLeaves L f) := ⟨books.pool, tree, maps⟩
  obtain ⟨data, flags, image⟩ := space.image
  rw [table]
  refine (sat_mio ((space.copyout image (le_refl bytes.length)).weaken fun e stop => stop.1.1)).mono ?_
  rintro ok k' ⟨⟨space', within, -, ⟨data', image', outside⟩, copied⟩, procs⟩
  have books' : Books L k' own l := by
    unfold Books
    rw [procs]
    exact Ledger.inside books live table root trap frame whole space' within
  refine ⟨books', procs, ⟨⟨_, congrFun procs p⟩, fun i small _ => ?_, fun u small => ?_, fun a small apart => ?_⟩,
    fun done j below => ?_⟩
  · have word : (PGSIZE * f + 8 * i) / 8 = 512 * f + i := by
      simp only [PGSIZE]
      omega
    unfold Vm.load
    rw [frame, word]
    exact (within.touches.keep (Rootlike.not_trapframe (.inr ⟨p, root⟩) trap)).2 i small
  · unfold Kernel.translate
    rw [procs, table]
    exact image.sv39_same space space' image' small
  · rw [table]
    exact image.userAt_same space space' image' small (outside a apart)
  · obtain ⟨opened, image''⟩ := copied done
    obtain ⟨inside, flag⟩ := opened (dst + j) (by omega) (by omega)
    refine ⟨?_, by rw [image''.userAt space' inside flag, Mem.store_of_mem _ below]⟩
    have bound := maps.bound _ inside
    simp only [PGSIZE, TRAPFRAMEPG] at bound
    omega

end Heeds

section Serves

/-- The books are kept and the caller is heeded. -/
def Serves (L : Layout) (F A : ℕ → Prop) (p : Fin NPROC) (k₀ k : Kernel) : Prop :=
  (∃ own l, Books L k own l) ∧ Heeds F A p k₀ k

theorem Serves.refl (books : Books L k own l) : Serves L F A p k k := ⟨⟨own, l, books⟩, .refl⟩

theorem Serves.quiet (serves : Serves L F A p k₀ k) (quiet : Quiet k k')
    (record : ∃ openfs, k'.procs p = { k.procs p with openfs }) : Serves L F A p k₀ k' := by
  obtain ⟨⟨own, l, books⟩, heeds⟩ := serves
  exact ⟨⟨own, l, books.quiet quiet⟩, heeds.trans (.quiet quiet.vm record)⟩

theorem Serves.ready (serves : Serves L F A p k₀ k) (ready : (k₀.procs p).state.Ready) : (k.procs p).state.Ready := by
  obtain ⟨openfs, record⟩ := serves.2.record
  rwa [record]

theorem Serves.table (serves : Serves L F A p k₀ k) : (k.procs p).pagetable = (k₀.procs p).pagetable := by
  obtain ⟨openfs, record⟩ := serves.2.record
  rw [record]

theorem Serves.setFs (serves : Serves L F A p k₀ k) (fs : Fs) : Serves L F A p k₀ { k with fs } :=
  serves.quiet (quiet_of_procs rfl rfl) ⟨_, rfl⟩

/-- An `int` counts no further than its bits do. -/
theorem toInt_toNat_le (n : ℕ) : (toInt n).toNat ≤ n % UINT := by
  unfold toInt
  rw [BitVec.toInt_eq_toNat_cond, BitVec.toNat_ofNat]
  change _ ≤ n % 2 ^ 32
  split <;> omega

variable (ready : (k₀.procs p).state.Ready)

include ready

/-- The kernel copies bytes to the buffer. -/
theorem Serves.copyoutpg (serves : Serves L F A p k₀ k) (dst : ℕ) (bytes : List Byte)
    (inside : ∀ j < bytes.length, dst + j < 2 ^ 39 → A (dst + j)) :
    Sat (mio (copyoutpg (k.procs p).pagetable dst bytes)) k Harmless fun _ k' =>
      Serves L F A p k₀ k' ∧ k'.procs = k.procs := by
  obtain ⟨⟨own, l, books⟩, heeds⟩ := serves
  have live := (Serves.ready ⟨⟨own, l, books⟩, heeds⟩ ready).ne_unused
  refine (books.copyout_heeds (F := F) live dst bytes).mono ?_
  rintro ok k' ⟨books', procs, heeds', -⟩
  refine ⟨⟨⟨own, l, books'⟩, heeds.trans (heeds'.mono fun a small ⟨low, high⟩ => ?_)⟩, procs⟩
  have here := inside (a - dst) (by omega) (by omega)
  rwa [Nat.add_sub_cancel' low] at here

theorem Serves.consoleread (serves : Serves L F A p k₀ k) (target n dst : ℕ)
    (inside : ∀ j < n, A ((dst + j) % WORD)) :
    Sat (consolereadLoop p target n dst) k anyStop fun _ k' => Serves L F A p k₀ k' := by
  have ring : ∀ {k : Kernel} (cons : Console), Serves L F A p k₀ k → Serves L F A p k₀ { k with cons } :=
    fun cons serves => serves.quiet (quiet_of_procs rfl rfl) ⟨_, rfl⟩
  induction n generalizing k dst with
  | zero => exact Sat.pure serves
  | succ n ih =>
    unfold consolereadLoop
    refine Sat.bind (Sat.gets (Q := fun a s => k = a ∧ k = s) ⟨rfl, rfl⟩) ?_
    rintro _ _ ⟨rfl, rfl⟩
    refine Sat.ite (fun _ => Sat.throw trivial) fun _ => ?_
    refine Sat.bind (Sat.update (Q := fun _ s => Serves L F A p k₀ s ∧ s.procs = k.procs) ⟨ring _ serves, rfl⟩) ?_
    rintro _ k₁ ⟨serves₁, procs₁⟩
    refine Sat.ite (fun _ => ?_) fun _ => ?_
    · refine Sat.bind (Sat.onlyIf (Q := fun _ s => Serves L F A p k₀ s)
        (fun _ => Sat.update (ring _ serves₁)) fun _ => serves₁) ?_
      exact fun _ _ serves₂ => Sat.pure serves₂
    · rw [← procs₁]
      refine Sat.bind ((serves₁.copyoutpg ready dst _ fun j below small => ?_).weaken fun _ _ => trivial) ?_
      · have first := inside j (Nat.lt_of_lt_of_le below (by simp))
        rwa [Nat.mod_eq_of_lt (Nat.lt_trans small (by decide))] at first
      rintro copied k₂ ⟨serves₂, -⟩
      refine Sat.ite (fun _ => Sat.pure serves₂) fun _ => Sat.ite (fun _ => Sat.pure serves₂) fun _ => ?_
      refine ih serves₂ _ fun j below => ?_
      have next := inside (j + 1) (by omega)
      rwa [Nat.mod_add_mod, Nat.add_assoc, Nat.add_comm 1 j]

theorem Serves.sysRead (serves : Serves L F A p k₀ k) (fd addr n : ℕ) (inside : ∀ j < n % UINT, A ((addr + j) % WORD)) :
    Sat (sysRead p fd addr n) k anyStop fun _ k' => Serves L F A p k₀ k' := by
  refine Sat.bind (argfd_still p fd k) ?_
  rintro found _ rfl
  cases found with
  | none => exact Sat.throw trivial
  | some file =>
    unfold HaloOS.fileread
    refine Sat.bind (Sat.gets (Q := fun _ s => k = s) rfl) ?_
    rintro file _ rfl
    refine Sat.ite (fun _ => Sat.pure serves) fun _ => Sat.ite (fun _ => Sat.ite (fun _ => ?_) fun _ => Sat.pure serves)
      fun _ => Sat.ite (fun _ => ?_) fun _ => Sat.pure serves
    · refine Sat.bind (serves.consoleread ready _ _ _ fun j below => inside j ?_) fun left k₁ serves₁ => Sat.pure serves₁
      exact Nat.lt_of_lt_of_le below (toInt_toNat_le n)
    refine Sat.bind (Sat.gets (Q := fun a s => k.procs p = a ∧ k = s) ⟨rfl, rfl⟩) ?_
    rintro _ _ ⟨rfl, rfl⟩
    refine Sat.bind (fio_apart _ k) ?_
    rintro _ _ ⟨fs, rfl⟩
    cases file.ip with
    | none => exact Sat.throw trivial
    | some ip =>
      refine Sat.bind ((readi_keeps (I := fun s => Serves L F A p k₀ s ∧ s.procs p = k.procs p) ?_ ?_ ?_).weaken
        fun _ _ => trivial) ?_
      · rintro s fs ⟨serves, same⟩
        exact ⟨serves.setFs fs, same⟩
      · rintro tot bytes s fits ⟨serves, same⟩
        rw [← same]
        refine (serves.copyoutpg ready _ _ fun j below small => ?_).mono ?_
        · have here := inside (tot + j) (by omega)
          rwa [← Nat.add_assoc, ← Nat.mod_add_mod, Nat.mod_eq_of_lt (Nat.lt_trans small (by decide))] at here
        · rintro _ s' ⟨serves', procs⟩
          exact ⟨serves', by rw [procs]⟩
      · exact ⟨serves.setFs fs, rfl⟩
      rintro ⟨tot, bytes⟩ k₂ ⟨serves₂, -⟩
      dsimp only
      refine Sat.bind (Sat.onlyIf (Q := fun _ s => Serves L F A p k₀ s) (fun _ => Sat.update ?_) fun _ => serves₂) ?_
      · exact serves₂.quiet (quiet_of_procs rfl rfl) ⟨_, rfl⟩
      intro _ k₃ serves₃
      refine Sat.bind (fio_apart _ k₃) ?_
      rintro _ _ ⟨fs₄, rfl⟩
      exact Sat.pure (serves₃.setFs fs₄)

theorem Serves.sysFstat (serves : Serves L F A p k₀ k) (fd addr : ℕ) (inside : ∀ j < 24, addr + j < 2 ^ 39 → A (addr + j)) :
    Sat (sysFstat p fd addr) k anyStop fun _ k' => Serves L F A p k₀ k' := by
  refine Sat.bind (argfd_still p fd k) ?_
  rintro found _ rfl
  cases found with
  | none => exact Sat.pure serves
  | some file =>
    unfold HaloOS.filestat
    refine Sat.bind (Sat.gets (Q := fun _ s => k = s) rfl) ?_
    rintro file _ rfl
    refine Sat.ite (fun _ => ?_) fun _ => Sat.pure serves
    refine Sat.bind (Sat.gets (Q := fun a s => k.procs p = a ∧ k = s) ⟨rfl, rfl⟩) ?_
    rintro _ _ ⟨rfl, rfl⟩
    refine Sat.bind (fio_apart _ k) ?_
    rintro _ _ ⟨fs, rfl⟩
    cases file.ip with
    | none => exact Sat.throw trivial
    | some ip =>
      refine Sat.bind (fio_apart _ _) ?_
      rintro inode _ ⟨fs₂, rfl⟩
      refine Sat.bind (fio_apart _ _) ?_
      rintro _ _ ⟨fs₃, rfl⟩
      refine Sat.bind (((serves.setFs fs₃).copyoutpg ready addr _ fun j below => inside j ?_).weaken fun _ _ => trivial) ?_
      · simpa [statBytes] using below
      rintro copied k₄ ⟨serves₄, -⟩
      exact Sat.pure serves₄

theorem Serves.fork (serves : Serves L F A p k₀ k) : Sat (fork L p) k anyStop fun _ k' => Serves L F A p k₀ k' := by
  have now := serves.ready ready
  obtain ⟨⟨own, l, books⟩, heeds⟩ := serves
  refine Sat.ofOk fun r k' returned => ?_
  obtain ⟨own', l', books', -, spares⟩ := (fork_spares books now.ne_unused).ok returned
  have record := (fork_others books).ok returned p now.ne_unused
  have alone : Alone p k own k' own' := .same record now fun s root => spares p s (standing_of now.ne_unused) (.inl root)
  exact ⟨⟨own', l', books'⟩, heeds.trans ((alone.undisturbed books books' now).heeds record)⟩

/-- Taking a dead child away concerns nobody else. -/
theorem Serves.freeproc (serves : Serves L F A p k₀ k) {np : Fin NPROC} (dead : (k.procs np).state = .zombie) :
    Sat (freeproc L np) k anyStop fun _ k' => Serves L F A p k₀ k' ∧
      k'.procs = Function.update k.procs np (k.procs np).cleared := by
  have now := serves.ready ready
  have other : p ≠ np := by
    rintro rfl
    exact now.ne_zombie dead
  obtain ⟨⟨own, l, books⟩, heeds⟩ := serves
  refine (books.reap (by rw [dead]; decide)).mono ?_
  rintro _ k' ⟨⟨own', l', books', spares⟩, procs⟩
  have record : k'.procs p = k.procs p := by rw [procs, Function.update_of_ne other]
  have alone : Alone p k own k' own' := .same record now fun s root =>
    spares p s (fun same => other (Fin.ext same)) (.inl root)
  exact ⟨⟨⟨own', l', books'⟩, heeds.trans ((alone.undisturbed books books' now).heeds record)⟩, procs⟩

theorem Serves.wait (serves : Serves L F A p k₀ k) (addr : ℕ) (inside : ∀ j < 4, addr + j < 2 ^ 39 → A (addr + j)) :
    Sat (wait L p addr) k anyStop fun _ k' => Serves L F A p k₀ k' := by
  unfold HaloOS.wait
  refine Sat.bind (Sat.gets (Q := fun a s => k = a ∧ k = s) ⟨rfl, rfl⟩) ?_
  rintro _ _ ⟨rfl, rfl⟩
  dsimp only
  split
  · rename_i np found
    have zombie : (k.procs np).state = .zombie := by simpa using List.find?_some found
    refine Sat.bind (Q := fun _ s => Serves L F A p k₀ s ∧ s.procs = k.procs)
      (Sat.onlyIf (fun _ => ?_) fun _ => ⟨serves, rfl⟩) ?_
    · refine Sat.bind ((serves.copyoutpg ready addr _ fun j below => inside j ?_).weaken fun _ _ => trivial) ?_
      · simpa using below
      · exact fun copied k₁ post => Sat.stopIf (fun _ => trivial) fun _ => post
    rintro _ k₁ ⟨serves₁, procs₁⟩
    refine Sat.bind (serves₁.freeproc ready (by rw [procs₁, zombie])) ?_
    exact fun _ _ post => Sat.pure post.1
  · exact Sat.ite (fun _ => Sat.pure serves) fun _ => Sat.throw trivial

omit ready in
/-- A call on descriptors alone. -/
theorem Serves.files {m : Kio ℤ} (serves : Serves L F A p k₀ k) (still : Sat m k anyStop fun _ k' => Quiet k k')
    (fds : Frames (OnlyFds p) m) : Sat m k anyStop fun _ k' => Serves L F A p k₀ k' :=
  Sat.ofOk fun _ _ returned => serves.quiet (still.ok returned) (fds.ok returned).2

end Serves

section Call

/-- The buffer that the caller names, as address and length. -/
def buffer (num a0 a1 a2 : ℕ) : ℕ × ℕ :=
  if num = SYS_READ then (a1, a2 % UINT)
  else if num = SYS_FSTAT then (a1, 24)
  else if num = SYS_WAIT then (a0, 4)
  else (a0, 0)

/-- The addresses of a buffer; addresses wrap. -/
def InBuffer (b : ℕ × ℕ) (a : ℕ) : Prop := ∃ j < b.2, a = (b.1 + j) % WORD

/-- An argument of the call. -/
def arg (k : Kernel) (p : Fin NPROC) (n : ℕ) : ℕ := k.vm.load ((k.procs p).trapframe + (A0 + 8 * n))

theorem sat_argaddr {β : Type} {n : ℕ} {next : ℕ → Kio β} {Q : β → Kernel → Prop}
    (rest : Sat (next (arg k p n)) k anyStop Q) : Sat (argaddr p n >>= next) k anyStop Q := by
  refine Sat.bind (Q := fun a s => arg k p n = a ∧ k = s) ?_ ?_
  · refine Sat.bind (Sat.stopIf (Q := fun _ s => k = s) (fun _ => trivial) fun _ => rfl) ?_
    rintro _ _ rfl
    exact Sat.gets ⟨rfl, rfl⟩
  · rintro _ _ ⟨rfl, rfl⟩
    exact rest

theorem sat_argint {β : Type} {n : ℕ} {next : ℕ → Kio β} {Q : β → Kernel → Prop}
    (rest : Sat (next (arg k p n % UINT)) k anyStop Q) : Sat (argint p n >>= next) k anyStop Q := by
  refine Sat.bind (Q := fun a s => arg k p n % UINT = a ∧ k = s) (sat_argaddr (Sat.pure ⟨rfl, rfl⟩)) ?_
  rintro _ _ ⟨rfl, rfl⟩
  exact rest

/-- Every call that comes back to its caller, but for `exec` and `sbrk`. -/
theorem Serves.call {num : ℕ} {call : Kio ℤ} (serves : Serves L F A p k₀ k) (ready : (k₀.procs p).state.Ready)
    (found : syscalls L p num = some call)
    (whole : ∀ a, InBuffer (buffer num (arg k p 0) (arg k p 1) (arg k p 2)) a → A a)
    (other : num ≠ SYS_SBRK ∧ num ≠ SYS_EXEC ∧ num ≠ SYS_EXEC2 ∧ num ≠ SYS_EXIT) :
    Sat call k anyStop fun _ k' => Serves L F A p k₀ k' := by
  have direct : ∀ {b n : ℕ}, buffer num (arg k p 0) (arg k p 1) (arg k p 2) = (b, n) →
      ∀ j < n, b + j < 2 ^ 39 → A (b + j) := by
    intro b n named j below small
    rw [named] at whole
    exact whole _ ⟨j, below, (Nat.mod_eq_of_lt (Nat.lt_trans small (by decide))).symm⟩
  unfold syscalls at found
  obtain ⟨-, rfl⟩ | ⟨-, found⟩ := entry_cases found
  · refine sat_reads (argint_reads _ _) fun fd => sat_reads (argint_reads _ _) fun n => ?_
    exact sat_reads (argraw_reads _ _) fun addr => sat_same (sysWrite_reads p fd addr n) serves
  obtain ⟨bad, -⟩ | ⟨-, found⟩ := entry_cases found
  · rcases bad with bad | bad <;> simp [bad] at other
  obtain ⟨-, rfl⟩ | ⟨-, found⟩ := entry_cases found
  · exact sat_reads (argint_reads _ _) fun fd => serves.files (sysDup_still p fd k) (sysDup_fds fd)
  obtain ⟨-, rfl⟩ | ⟨-, found⟩ := entry_cases found
  · refine sat_reads (argstr_reads _ _ _) fun path => sat_reads (argint_reads _ _) fun model => ?_
    exact serves.files (sysOpen_still p path model k) (sysOpen_fds path model)
  obtain ⟨rfl, rfl⟩ | ⟨-, found⟩ := entry_cases found
  · exact sat_argaddr (serves.wait ready _ (direct rfl))
  obtain ⟨-, rfl⟩ | ⟨-, found⟩ := entry_cases found
  · refine sat_reads (argstr_reads _ _ _) fun path => sat_reads (argint_reads _ _) fun major => ?_
    refine sat_reads (argint_reads _ _) fun minor => (sysMknod_apart path major minor).mono ?_
    rintro _ _ ⟨fs, rfl⟩
    exact serves.setFs fs
  obtain ⟨-, rfl⟩ | ⟨-, found⟩ := entry_cases found
  · exact serves.fork ready
  obtain ⟨rfl, rfl⟩ | ⟨-, found⟩ := entry_cases found
  · refine sat_argint (sat_argint (sat_argaddr ?_))
    refine serves.sysRead ready _ _ _ fun j below => whole _ ⟨j, ?_, rfl⟩
    rwa [Nat.mod_mod] at below
  obtain ⟨bad, -⟩ | ⟨-, found⟩ := entry_cases found
  · simp [bad] at other
  obtain ⟨bad, -⟩ | ⟨-, found⟩ := entry_cases found
  · simp [bad] at other
  obtain ⟨rfl, rfl⟩ | ⟨-, found⟩ := entry_cases found
  · exact sat_argint (sat_argaddr (serves.sysFstat ready _ _ (direct rfl)))
  obtain ⟨-, rfl⟩ | ⟨-, found⟩ := entry_cases found
  · exact sat_reads (argint_reads _ _) fun fd => serves.files (sysClose_still p fd k) (sysClose_fds fd)
  · cases found

/-- A store to the caller's trapframe. -/
theorem Serves.setTrapword {i : ℕ} (serves : Serves L F A p k₀ k) (ready : (k₀.procs p).state.Ready) (small : i < 512)
    (free : F i) (x : ℕ) : Sat (setTrapword p (8 * i) x) k anyStop fun _ k' => Serves L F A p k₀ k' ∧
      k'.procs = k.procs ∧ k'.vm = k.vm.store ((k.procs p).trapframe + 8 * i) x := by
  have now := serves.ready ready
  obtain ⟨⟨own, l, books⟩, heeds⟩ := serves
  obtain ⟨t, f, table, frame, root, trap, space⟩ := books.space now.ne_unused
  refine Sat.bind (Sat.gets (Q := fun a s => k.procs p = a ∧ k = s) ⟨rfl, rfl⟩) ?_
  rintro _ _ ⟨rfl, rfl⟩
  refine Sat.zoom (Sat.update ⟨⟨⟨own, l, ?_⟩, heeds.trans ⟨⟨_, rfl⟩, fun j below kept => ?_, fun u below => ?_, fun a below _ => ?_⟩⟩, rfl, rfl⟩)
  · rw [frame]
    exact books.store_trapframe i trap small x
  · have differ : j ≠ i := by
      rintro rfl
      exact kept free
    exact Function.update_of_ne (by omega) _ _
  all_goals
    have keeps := keeps_store (n := f) k.vm small x
    have kept : ∀ n, n = t ∨ (own n).under t → own n = own n ∧ ∀ j < 512,
        (k.vm.store (PGSIZE * f + 8 * i) x).mem (512 * n + j) = k.vm.mem (512 * n + j) := by
      refine fun n inner => ⟨rfl, fun j inside => keeps.at ?_ inside⟩
      rintro rfl
      rcases inner with rfl | inner
      · simp [trap] at root
      · simp [trap, Owner.under] at inner
    have space' := (space.poke (by simp [trap]) (by simp [trap]) (by simp [trap, Owner.under]) keeps rfl).1
  · unfold Kernel.translate
    rw [table, frame]
    exact space.sv39_kept space'.tree space'.pool kept below
  · rw [table, frame]
    exact space.userAt_kept space'.tree space'.pool kept below

/-- What `syscall` does for a call that comes back, whatever its number. -/
theorem Serves.syscall {num : ℕ} (serves : Serves L (· = 14) A p k₀ k) (ready : (k₀.procs p).state.Ready)
    (number : k.vm.load ((k.procs p).trapframe + A7) % UINT = num)
    (whole : ∀ a, InBuffer (buffer num (arg k p 0) (arg k p 1) (arg k p 2)) a → A a)
    (other : num ≠ SYS_SBRK ∧ num ≠ SYS_EXEC ∧ num ≠ SYS_EXEC2 ∧ num ≠ SYS_EXIT) :
    Sat (HaloOS.syscall L p) k anyStop fun _ k' => Serves L (· = 14) A p k₀ k' := by
  refine Sat.bind (Sat.gets (Q := fun a s => a % UINT = num ∧ k = s) ⟨number, rfl⟩) ?_
  rintro a7 _ ⟨number', rfl⟩
  rw [number']
  split
  · rename_i call found
    refine Sat.bind (serves.call ready found whole other) fun r k₁ serves₁ => ?_
    exact Sat.onlyIf (fun _ => (serves₁.setTrapword (i := 14) ready (by decide) rfl _).mono fun _ _ post => post.1)
      fun _ => serves₁
  · exact (serves.setTrapword (i := 14) ready (by decide) rfl _).mono fun _ _ post => post.1

end Call

section Footprint

/-- `exit` leaves a zombie without files. -/
theorem exit_record (status : ℕ) (k : Kernel) : Sat (exit p status) k anyStop fun _ k' => ∃ openfs parent,
    k'.procs p = { k.procs p with openfs, parent, pwd := none, xstate := status, state := .zombie } := by
  unfold exit
  refine Sat.bind (Sat.gets (Q := fun _ s => k = s) rfl) ?_
  rintro initp _ rfl
  refine Sat.bind (Sat.stopIf (Q := fun _ s => k = s) (fun _ => trivial) fun _ => rfl) ?_
  rintro _ _ rfl
  refine Sat.bind (closeFiles_fds (p := p) _ _ k) ?_
  rintro _ k₁ ⟨-, openfs, record₁⟩
  refine Sat.bind (Sat.gets (Q := fun _ s => k₁ = s) rfl) ?_
  rintro proc _ rfl
  split
  · exact Sat.throw trivial
  refine Sat.bind (fio_apart _ k₁) ?_
  rintro _ _ ⟨fs, rfl⟩
  refine Sat.bind (Sat.update (Q := fun _ s => s.procs p = { k.procs p with openfs, pwd := none }) ?_) ?_
  · rw [setProc_procs, Function.update_self, record₁]
  intro _ k₃ record₃
  refine Sat.bind (Sat.update (Q := fun _ s => ∃ parent, s.procs p = { k.procs p with openfs, parent, pwd := none }) ?_) ?_
  · dsimp only
    rw [record₃]
    split
    · exact ⟨_, rfl⟩
    · exact ⟨_, rfl⟩
  rintro _ k₄ ⟨parent, record₄⟩
  refine Sat.bind (Sat.update (Q := fun _ s => s.procs p =
    { k.procs p with openfs, parent, pwd := none, xstate := status, state := .zombie }) ?_) ?_
  · rw [setProc_procs, Function.update_self, record₄]
  exact fun _ k₅ record₅ => Sat.pure ⟨openfs, parent, record₅⟩

theorem exit_zombie (status : ℕ) (k : Kernel) :
    Sat (exit p status) k anyStop fun _ k' => (k'.procs p).state = .zombie := by
  refine (exit_record status k).mono ?_
  rintro _ k' ⟨openfs, parent, record⟩
  rw [record]

/-- The system call `exit` does not come back. -/
theorem syscall_exit (number : k.vm.load ((k.procs p).trapframe + A7) % UINT = SYS_EXIT) :
    Sat (syscall L p) k anyStop fun _ k' => (k'.procs p).state = .zombie := by
  refine Sat.bind (Sat.gets (Q := fun a s => a % UINT = SYS_EXIT ∧ k = s) ⟨number, rfl⟩) ?_
  rintro a7 _ ⟨number', rfl⟩
  rw [number', show syscalls L p SYS_EXIT = some (Syscall.sysExit p) from rfl]
  refine Sat.bind (sat_reads (argint_reads p 0) fun status => exit_zombie status k) fun r k₁ zombie => ?_
  exact Sat.onlyIf (fun differ => absurd rfl differ) fun _ => zombie

/-- What a system call has left of its caller's state: of the record all but the descriptors, of the registers
all but `a0` and the program counter, all translations, and the memory outside the buffer of the call. -/
structure Answered (num : ℕ) (p : Fin NPROC) (k k' : Kernel) : Prop where
  record : ∃ openfs, k'.procs p = { k.procs p with openfs }
  epc : k'.vm.load ((k.procs p).trapframe + EPC) = (k.vm.load ((k.procs p).trapframe + EPC) + 4) % WORD
  frame : ∀ i < 512, 8 * i ≠ EPC → 8 * i ≠ A0 →
    k'.vm.load ((k.procs p).trapframe + 8 * i) = k.vm.load ((k.procs p).trapframe + 8 * i)
  table : ∀ u < 2 ^ 27, k'.translate p u = k.translate p u
  memory : ∀ a < 2 ^ 39, ¬ InBuffer (buffer num (arg k p 0) (arg k p 1) (arg k p 2)) a →
    userAt k'.vm (k'.procs p).pagetable a = userAt k.vm (k.procs p).pagetable a

theorem usertrapEcall_answered {num : ℕ} (books : Books L k own l) (ready : (k.procs p).state.Ready)
    (number : k.vm.load ((k.procs p).trapframe + A7) % UINT = num)
    (other : num ≠ SYS_SBRK ∧ num ≠ SYS_EXEC ∧ num ≠ SYS_EXEC2) :
    Sat (usertrapEcall L p) k anyStop fun _ k' => (k'.procs p).state.Ready → Answered num p k k' := by
  have start : Serves L (· = 3) (fun _ => False) p k k := .refl books
  refine Sat.bind (Sat.gets (Q := fun _ s => k = s) rfl) ?_
  rintro proc _ rfl
  refine Sat.ite (fun _ => ?_) fun _ => ?_
  · exact Sat.bind (exit_zombie _ k) fun r k₁ zombie => Sat.pure fun back => absurd zombie back.ne_zombie
  refine Sat.bind (Sat.gets (Q := fun a s => k.vm.load ((k.procs p).trapframe + EPC) = a ∧ k = s) ⟨rfl, rfl⟩) ?_
  rintro _ _ ⟨rfl, rfl⟩
  refine Sat.bind (start.setTrapword (i := 3) ready (by decide) rfl _) ?_
  rintro _ k₁ ⟨⟨⟨own₁, l₁, books₁⟩, heeds₁⟩, procs₁, vm₁⟩
  have ready₁ : (k₁.procs p).state.Ready := by rwa [procs₁]
  have words : ∀ i < 512, i ≠ 3 →
      k₁.vm.load ((k₁.procs p).trapframe + 8 * i) = k.vm.load ((k.procs p).trapframe + 8 * i) := by
    intro i small differ
    rw [procs₁]
    exact heeds₁.frame i small differ
  have args : ∀ n < 6, arg k₁ p n = arg k p n := by
    intro n low
    have word := words (14 + n) (by omega) (by omega)
    rwa [show 8 * (14 + n) = A0 + 8 * n by unfold A0; omega] at word
  have number₁ : k₁.vm.load ((k₁.procs p).trapframe + A7) % UINT = num :=
    (congrArg (· % UINT) (words 21 (by decide) (by decide))).trans number
  by_cases leaves : num = SYS_EXIT
  · exact (syscall_exit (number₁.trans leaves)).mono fun _ _ zombie back => absurd zombie back.ne_zombie
  have serves : Serves L (· = 14) (InBuffer (buffer num (arg k p 0) (arg k p 1) (arg k p 2))) p k₁ k₁ := .refl books₁
  refine (serves.syscall ready₁ number₁ ?_ ⟨other.1, other.2.1, other.2.2, leaves⟩).mono ?_
  · rw [args 0 (by decide), args 1 (by decide), args 2 (by decide)]
    exact fun _ => id
  rintro _ k' ⟨-, heeds⟩ -
  obtain ⟨openfs, record⟩ := heeds.record
  rw [procs₁] at record
  refine ⟨⟨openfs, record⟩, ?_, fun i small one two => ?_, fun u small => ?_, fun a small outside => ?_⟩
  · have word := heeds.frame 3 (by decide) (by decide)
    rw [procs₁, vm₁] at word
    exact word.trans (Function.update_self ..)
  · have word := heeds.frame i small fun same => two (by rw [same]; rfl)
    rw [words i small fun same => one (by rw [same]; rfl), procs₁] at word
    exact word
  · rw [heeds.table u small, heeds₁.table u small]
  · have bytes := heeds.memory a small outside
    rw [procs₁, heeds₁.memory a small not_false] at bytes
    rwa [record]

end Footprint

end HaloOS
