import HaloOS.Fs.Lookup
import HaloOS.Kernel.ExecSpec
import HaloOS.Kernel.Memory

/-! What a program finds of its arguments after `exec`. -/

namespace HaloOS

open Lib

variable {L : Layout} {v : Vm} {own : ℕ → Owner} {l : List ℕ} {k : Kernel} {p : Fin NPROC}
  {t f N a sz sp entry i pagetable : ℕ} {data : Mem} {flags : ℕ → ℕ} {argv : List (List Byte)} {ptrs : List ℕ}

/-- The user word at `a`, byte by byte. -/
def UserWord (v : Vm) (pagetable a w : ℕ) : Prop := ∀ k < 8, userAt v pagetable (a + k) = some (leByte w k)

/-- The user string at `a`, with its NUL. -/
def UserString (v : Vm) (pagetable a : ℕ) (arg : List Byte) : Prop :=
  ∀ j < arg.length + 1, userAt v pagetable (a + j) = some ((arg ++ [0]).getD j 0)

/-- The arguments of a program in the stack page that ends at `sz`: at `sp` the pointers with a final 0, and
above them the strings they point to, each below the one before. -/
structure Arguments (v : Vm) (pagetable sz : ℕ) (argv : List (List Byte)) (ptrs : List ℕ) (sp : ℕ) : Prop where
  count : ptrs.length = argv.length
  words : ∀ i < argv.length + 1, UserWord v pagetable (sp + 8 * i) ((ptrs ++ [0]).getD i 0)
  strings : ∀ (i : ℕ) arg ptr, argv[i]? = some arg → ptrs[i]? = some ptr → ptr % 16 = 0 ∧
    sz - PGSIZE ≤ ptr ∧ ptr + (arg.length + 1) ≤ sz ∧ UserString v pagetable ptr arg
  apart : ∀ (i j : ℕ) ptr later next, i < j → ptrs[i]? = some ptr → argv[j]? = some later →
    ptrs[j]? = some next → next + (later.length + 1) ≤ ptr
  array : ∀ (i : ℕ) ptr, ptrs[i]? = some ptr → sp + 8 * (argv.length + 1) ≤ ptr
  aligned : sp % 16 = 0
  above : sz - PGSIZE ≤ sp

/-- A call of `exec` stays inside of `ustack`, and when it returns the arguments are where `sp` and `a1`
say. -/
def ArgsRight (L : Layout) (k : Kernel) (p : Fin NPROC) (path : List Byte) (argv : List (List Byte)) : Prop :=
  match exec L p path argv k with
  | .error stop => stop ≠ .fault
  | .ok (_, k') => ∃ ptrs sp, k'.vm.load ((k'.procs p).trapframe + SP) = sp ∧
      k'.vm.load ((k'.procs p).trapframe + A1) = sp ∧
      Arguments k'.vm (k'.procs p).pagetable (k'.procs p).sz argv ptrs sp

/-- User code sees what the image says, but for the page below the stack. -/
theorem Installed.userAt (installed : Installed L k own l p t f (PGSIZE * (N + 2)) entry sp data (guarded N))
    (inside : a < PGSIZE * (N + 2)) (other : a / PGSIZE ≠ N) :
    userAt k.vm (k.procs p).pagetable a = some (data a) := by
  rw [installed.table]
  refine installed.image.userAt installed.space ?_ (if_neg other)
  rw [pages_mul]
  simp only [PGSIZE] at *
  omega

theorem Installed.stackAt (installed : Installed L k own l p t f (PGSIZE * (N + 2)) entry sp data (guarded N))
    (low : PGSIZE * (N + 1) ≤ a) (high : a < PGSIZE * (N + 2)) :
    HaloOS.userAt k.vm (k.procs p).pagetable a = some (data a) := by
  refine installed.userAt high ?_
  simp only [PGSIZE] at *
  omega

/-- What `pushArgs` leaves is what the program needs. -/
theorem Pushed.arguments (pushed : Pushed (PGSIZE * (N + 1)) (PGSIZE * (N + 2)) argv ptrs sp)
    (stack : ∀ a, PGSIZE * (N + 1) ≤ a → a < PGSIZE * (N + 2) →
      userAt v pagetable a = some ((storeArgs argv ptrs data).store sp (ustackBytes ptrs) a)) :
    Arguments v pagetable (PGSIZE * (N + 2)) argv ptrs sp := by
  obtain ⟨-, aligned, above, low, stacked, below⟩ := pushed
  have count := stacked.length
  have top := stacked.low_le
  have bytes : (ustackBytes ptrs).length = 8 * (argv.length + 1) := by
    rw [ustackBytes_length, count]
  have place : ∀ {i ptr : ℕ}, ptrs[i]? = some ptr → low ≤ ptr := by
    intro i ptr there
    have some : i < argv.length := by
      rw [← count]
      exact (List.getElem?_eq_some_iff.mp there).choose
    exact (stacked.place (List.getElem?_eq_getElem some) there).2.2.1
  refine ⟨count, ?_, ?_, ?_, ?_, aligned, ?_⟩
  · intro i small k inside
    rw [stack _ (by omega) (by omega), Nat.add_assoc, Mem.store_of_mem _ (by omega), ustackBytes,
      ustackBytes_getD _ (by simpa [count] using small) inside]
  · intro i arg ptr here there
    obtain ⟨aligned', above', low', fits⟩ := stacked.place here there
    refine ⟨aligned', by rwa [stackbase_eq], fits, fun j inside => ?_⟩
    rw [stack _ (by omega) (by omega), Mem.store_of_not_mem _ (by omega),
      storeArgs_copy stacked here there inside]
  · intro i j ptr later next order there here' there'
    exact stacked.below order there here' there'
  · intro i ptr there
    exact below.trans (place there)
  · rwa [stackbase_eq]

/-- Unless there are exactly `MAXARG` arguments that fit, `exec` is right about them. -/
theorem Books.argsRight (books : Books L k own l) (live : (k.procs p).state ≠ .unused) (path : List Byte)
    (other : ¬ (argv.length = MAXARG ∧ room argv ≤ PGSIZE)) : ArgsRight L k p path argv := by
  have spec := execWith_spec (readiReader_delivers fun _ gentle => gentle) (fun _ => joins_true) books
    (watched_true p) trivial live path argv
  rw [← exec_eq] at spec
  unfold ArgsRight
  split
  · rename_i stop stopped
    exact fun fault => other ((spec.error stopped).2 fault)
  · rename_i r k' returned
    obtain ⟨-, -, own', l', -, -, elf, size, data, -, ptrs, sp, t, f, pushed, installed⟩ := spec.ok returned
    refine ⟨ptrs, sp, ?_, ?_, ?_⟩
    · rw [installed.frame, installed.pointer]
    · rw [installed.frame, installed.argument]
    · rw [installed.size]
      exact pushed.arguments fun a low high => installed.stackAt low high

/-- With exactly `MAXARG` arguments that fit, `exec` writes beyond `ustack` once the program is loaded. -/
theorem exec_beyond {path : List Byte} {r : ℕ × ℕ × List Byte} {k' : Kernel} (books : Books L k own l)
    (live : (k.procs p).state ≠ .unused)
    (prepared : prepareWith L readiReader (k.procs p) path k = .ok (r, k')) (many : argv.length = MAXARG)
    (fit : room argv ≤ PGSIZE) : exec L p path argv k = .error .fault := by
  obtain ⟨-, f, -, frame, -⟩ := books.holds p live
  obtain ⟨pagetable, sz1, elf⟩ := r
  obtain ⟨t, size, data, rfl, rfl, -, builds⟩ := (prepareWith_spec (readiReader_delivers fun _ gentle => gentle)
    (fun _ => joins_true) books (watched_true p) trivial frame path).ok prepared
  obtain ⟨own', l', site, -, -, image⟩ := builds
  have fits : Fits (· < pages size + 2) (guarded (pages size)) (PGSIZE * (pages size + 1)) argv
      (PGSIZE * (pages size + 2)) := by
    refine ⟨by simp only [PGSIZE]; omega, by simp only [PGSIZE] at *; omega, fun a low high => ?_⟩
    have page : a / PGSIZE = pages size + 1 := by
      simp only [PGSIZE] at *
      omega
    rw [page]
    exact ⟨by omega, if_neg (by omega)⟩
  have stops : Sat (exec L p path argv) k (· = .fault) fun _ _ => False := by
    rw [exec_eq]
    unfold execWith
    refine Sat.bind (Sat.gets (Q := fun a s => k.procs p = a ∧ k = s) ⟨rfl, rfl⟩) ?_
    rintro _ _ ⟨rfl, rfl⟩
    refine Sat.bind (Sat.ofRun (Q := fun a s => (_, _, elf) = a ∧ k' = s) prepared ⟨rfl, rfl⟩) ?_
    rintro _ _ ⟨rfl, rfl⟩
    dsimp only
    unfold finishExec
    rw [stackbase_eq]
    have beyond := site.space.pushArgs_beyond image (le_refl _) many fits
    exact Sat.bind ((sat_mio beyond).mono fun _ _ never => never.1) fun _ _ => False.elim
  unfold Sat at stops
  split at stops
  · exact stops.elim
  · rename_i stopped
    rw [stopped, stops]

section Examples

/-- A file that is an ELF header without program headers. -/
def emptyProgram : Dinode := { type := T_FILE, nlink := 1, size := 64, addrs := fun _ => 5 }

def elfHeader : Block := fun k => ([0x7f, 0x45, 0x4c, 0x46] : List Byte).getD k 0

def elfFs : Fs where
  cache := initBcache (Function.update (Function.update (Function.update (fun _ _ => 0)
    2 (emptyProgram.write 7 (twoEntries.write 1 fun _ => 0))) 4 dotAndX) 5 elfHeader)
  sb := tinySb
  inodes := initInodecache

/-- Thirty free pages, and a file system with the program `x`. -/
def elfKernel : Kernel := { bootKernel 30 with fs := elfFs }

theorem elfKernel_booted : Booted smallLayout elfKernel (List.range' FIRSTPG 30) :=
  { bootKernel_booted 30 (by decide) with }

/-- After `userinit` the program can be loaded. -/
theorem elfKernel_prepares : ∃ r k own l, userinit smallLayout elfKernel = .ok (r, k) ∧ Books smallLayout k own l ∧
    (k.procs 0).state ≠ .unused ∧
    ∃ r' k', prepareWith smallLayout readiReader (k.procs 0) [0x78] k = .ok (r', k') := by
  obtain ⟨r, k, started, state⟩ := outcome_some (m := userinit smallLayout) (k := elfKernel)
    (f := fun k => (k.procs 0).state) (b := .runnable) (by decide +kernel)
  obtain ⟨r', k', both, -⟩ := outcome_some (m := do
      let _ ← userinit smallLayout
      let proc ← getProc 0
      prepareWith smallLayout readiReader proc [0x78]) (k := elfKernel)
    (f := fun _ => ()) (b := ()) (by decide +kernel)
  obtain ⟨r₁, k₁, started', rest⟩ := bind_ok.mp both
  rw [started] at started'
  obtain ⟨rfl, rfl⟩ : r = r₁ ∧ k = k₁ := by simpa using started'
  obtain ⟨_, _, read, prepared⟩ := bind_ok.mp rest
  obtain ⟨rfl, rfl⟩ := gets_ok.mp read
  obtain ⟨own, books, -⟩ := elfKernel_booted.books
  have room : Room elfKernel .userinit := by
    intro l links
    rw [links.unique elfKernel_booted.links, List.length_range']
    decide
  obtain ⟨own₁, l₁, books₁, -⟩ := (Step.userinit started).books (K := fun _ => True) room books
  exact ⟨r, k, own₁, l₁, started, books₁, by simp [state], r', k', prepared⟩

end Examples

/-- `exec` is right about exactly those arguments that are not `MAXARG` many, or do not fit. -/
theorem exec_arguments_iff (argv : List (List Byte)) :
    (∀ L k own l p path, Books L k own l → (k.procs p).state ≠ .unused → ArgsRight L k p path argv) ↔
      ¬ (argv.length = MAXARG ∧ room argv ≤ PGSIZE) := by
  constructor
  · rintro right ⟨many, fit⟩
    obtain ⟨-, k, own, l, -, books, live, r, k', prepared⟩ := elfKernel_prepares
    have wrong := right _ k own l 0 [0x78] books live
    unfold ArgsRight at wrong
    rw [exec_beyond books live prepared many fit] at wrong
    exact wrong rfl
  · exact fun other L k own l p path books live => books.argsRight live path other

end HaloOS
