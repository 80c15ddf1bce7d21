import HaloOS.Kernel.Copyin
import HaloOS.Kernel.Runs

/-! `growproc`, which `sbrk` uses to move the end of user memory. The source compares the
result of `uvmalloc` with the old size where it should assign it, and calls `uvmalloc` to
shrink. -/

namespace HaloOS

open Lib

variable {L : Layout} {own : ℕ → Owner} {l : List ℕ} {t u : ℕ} {S : ℕ → Prop} {top : ℕ → ℕ}
  {k k' : Kernel} {p : Fin NPROC} {n r : ℤ} {v : Vm}

def growproc (L : Layout) (p : Fin NPROC) (n : ℤ) : Kio ℤ := do
  let proc ← getProc p
  let sz := proc.sz % UINT
  let newsz := ((sz + n) % UINT).toNat
  if 0 < n then do
    let grown ← mio (uvmalloc L proc.pagetable sz newsz)
    -- `(sz == uvmalloc(..)) == 0`
    if sz ≠ grown then pure (-1)
    else do
      setProc p ({ · with sz })
      pure 0
  else if n < 0 then do
    let grown ← mio (uvmalloc L proc.pagetable sz newsz)
    setProc p ({ · with sz := grown % UINT })
    pure 0
  else do
    setProc p ({ · with sz })
    pure 0

/-- The hardware finds a page at `u`. -/
def MapsPage (v : Vm) (pagetable u : ℕ) : Prop := (sv39 v.mem u 2 pagetable).isSome

/-- The byte at a virtual address, if its page is mapped. -/
def userByte (v : Vm) (pagetable a : ℕ) : Option Byte :=
  (sv39 v.mem (a / PGSIZE) 2 pagetable).map fun entry => v.byteAt (PTE2PA entry.2 + a % PGSIZE)

/-- User memory has become `n` bytes longer, or shorter. -/
structure Moved (k : Kernel) (p : Fin NPROC) (n : ℤ) (k' : Kernel) : Prop where
  size : ((k'.procs p).sz : ℤ) = (k.procs p).sz + n
  mapped : ∀ u < TRAPFRAMEPG,
    MapsPage k'.vm (k.procs p).pagetable u ↔ u < pages (k'.procs p).sz
  kept : ∀ a < min (k.procs p).sz (k'.procs p).sz,
    userByte k'.vm (k.procs p).pagetable a = userByte k.vm (k.procs p).pagetable a
  zero : ∀ a, PGSIZE * pages (k.procs p).sz ≤ a → a < PGSIZE * pages (k'.procs p).sz →
    userByte k'.vm (k.procs p).pagetable a = some 0

/-- User memory is as large as before. -/
structure Unmoved (k : Kernel) (p : Fin NPROC) (k' : Kernel) : Prop where
  size : (k'.procs p).sz = (k.procs p).sz
  mapped : ∀ u < TRAPFRAMEPG,
    MapsPage k'.vm (k.procs p).pagetable u ↔ MapsPage k.vm (k.procs p).pagetable u

/-- Enough pages are free to grow by `n` bytes. -/
def EnoughFree (k : Kernel) (p : Fin NPROC) (n : ℤ) : Prop :=
  ∀ free, Links k.vm.mem k.vm.freelist free →
    growPages k.vm.mem ((k.procs p).pagetable / PGSIZE) (pages (k.procs p).sz)
      (pages ((k.procs p).sz + n).toNat) ≤ free.length

/-- What `growproc` has to do: all or nothing, growing whenever enough pages are free and
shrinking by at most what there is. -/
structure GrowsRight (k : Kernel) (p : Fin NPROC) (n r : ℤ) (k' : Kernel) : Prop where
  outcome : (r = 0 ∧ Moved k p n k') ∨ (r = -1 ∧ Unmoved k p k')
  grows : 0 < n → EnoughFree k p n → r = 0
  shrinks : n < 0 → -n ≤ (k.procs p).sz → r = 0 ∧
    ∃ free, Links k'.vm.mem k'.vm.freelist free ∧
      ∀ u, pages (k'.procs p).sz ≤ u → u < pages (k.procs p).sz →
        ∃ pte, sv39 k.vm.mem u 2 (k.procs p).pagetable = some (0, pte) ∧
          PTE2PA pte / PGSIZE ∈ free
  refuses : n < 0 → (k.procs p).sz < -n → r ≠ 0

/-- The user range of the process is mapped exactly below its size. -/
structure Fitted (L : Layout) (k : Kernel) (p : Fin NPROC) (own : ℕ → Owner) (l : List ℕ)
    (t : ℕ) (top : ℕ → ℕ) : Prop where
  table : (k.procs p).pagetable = PGSIZE * t
  space : Space L k.vm own l t (· < pages (k.procs p).sz) top
  settled : Settled own t
  clear : TopOnly top

theorem Space.mapsPage_iff (space : Space L v own l t S top) (clear : TopOnly top)
    (small : u < TRAPFRAMEPG) : MapsPage v (PGSIZE * t) u ↔ S u := by
  have bound : u < 2 ^ 27 := by
    simp only [TRAPFRAMEPG] at small
    omega
  unfold MapsPage
  rw [space.tree.sv39 space.pool bound]
  by_cases inside : S u
  · obtain ⟨f, owner⟩ := space.maps.frame u inside
    refine iff_of_true ?_ inside
    obtain ⟨-, entry | entry⟩ := space.maps.user f u owner
    · rw [entry, if_neg (by rw [entry_and f (by decide)]; decide)]
      rfl
    · rw [entry, if_neg (by rw [entry_and f (by decide)]; decide)]
      rfl
  · rw [space.maps.other u bound inside, clear u small, if_pos zero_invalid]
    exact iff_of_false (by simp) inside

theorem Fitted.size_le (fitted : Fitted L k p own l t top) : (k.procs p).sz ≤ 2 ^ 27 := by
  have few := fitted.space.maps.pages_le fitted.space.pool fun _ below => below
  simp only [pages, PGSIZE] at few
  omega

theorem Fitted.enough_iff (fitted : Fitted L k p own l t top) :
    EnoughFree k p n ↔ growPages k.vm.mem t (pages (k.procs p).sz)
      (pages ((k.procs p).sz + n).toNat) ≤ l.length := by
  unfold EnoughFree
  rw [fitted.table, page_number]
  constructor
  · exact fun enough => enough l fitted.space.pool.links
  · intro enough free links
    rwa [links.unique fitted.space.pool.links]

theorem Fitted.uint (fitted : Fitted L k p own l t top) :
    (k.procs p).sz % UINT = (k.procs p).sz := by
  have small := fitted.size_le
  refine Nat.mod_eq_of_lt ?_
  simp only [UINT]
  omega

/-- `uvmalloc` as `growproc` calls it. -/
theorem Fitted.uvmalloc (fitted : Fitted L k p own l t top) (newsz : ℕ) (small : newsz < UINT) :
    Sat (mio (uvmalloc L (k.procs p).pagetable (k.procs p).sz newsz)) k (fun _ => False)
      fun r k' => k'.procs = k.procs ∧
        ((r = 0 ∧ Unmoved k p k' ∧ (k.procs p).sz ≤ newsz ∧
            l.length < growPages k.vm.mem t (pages (k.procs p).sz) (pages newsz)) ∨
          (r = max (k.procs p).sz newsz ∧
            growPages k.vm.mem t (pages (k.procs p).sz) (pages r) ≤ l.length)) := by
  have few : pages newsz ≤ 2 ^ 27 := by
    simp only [pages, PGSIZE, UINT] at *
    omega
  rw [fitted.table]
  refine (sat_mio (fitted.space.uvmalloc fitted.settled fitted.clear)).mono ?_
  rintro r k' ⟨⟨own', l', -, -, ⟨rfl, space, grows, short⟩ | ⟨rfl, -, -, enough⟩⟩, procs⟩
  · refine ⟨procs, .inl ⟨rfl, ⟨by rw [procs], fun u inside => ?_⟩, grows, short few⟩⟩
    rw [fitted.table, space.mapsPage_iff fitted.clear inside,
      fitted.space.mapsPage_iff fitted.clear inside]
  · exact ⟨procs, .inr ⟨rfl, enough few⟩⟩

theorem setProc_sz (k : Kernel) (p : Fin NPROC) (sz : ℕ) :
    ((k.setProc p ({ · with sz })).procs p).sz = sz := by
  simp [Kernel.setProc]

/-- Growing: success is reported as failure, and failure as success when there was no
memory to begin with. -/
theorem Fitted.grow (fitted : Fitted L k p own l t top) (pos : 0 < n) (int : n < 2 ^ 31) :
    Sat (growproc L p n) k (fun _ => False) fun r k' =>
      (EnoughFree k p n ∧ r = -1) ∨
        (¬ EnoughFree k p n ∧ (k.procs p).sz = 0 ∧ r = 0 ∧ (k'.procs p).sz = 0) ∨
        (¬ EnoughFree k p n ∧ 0 < (k.procs p).sz ∧ r = -1 ∧ Unmoved k p k') := by
  have small := fitted.size_le
  have newsz : (((k.procs p).sz + n) % UINT).toNat = ((k.procs p).sz + n).toNat := by
    rw [Int.emod_eq_of_lt (by omega)]
    simp only [UINT]
    omega
  have below : ((k.procs p).sz + n).toNat < UINT := by
    simp only [UINT]
    omega
  rw [fitted.enough_iff]
  unfold growproc
  refine Sat.bind (Sat.gets (Q := fun proc s => proc = k.procs p ∧ k = s) ⟨rfl, rfl⟩) ?_
  rintro _ _ ⟨rfl, rfl⟩
  dsimp only
  rw [fitted.uint, newsz, if_pos pos]
  refine Sat.bind (fitted.uvmalloc _ below) ?_
  rintro grown k' ⟨procs, ⟨rfl, unmoved, -, short⟩ | ⟨rfl, enough⟩⟩
  · refine Sat.ite (fun some_ => Sat.pure ?_) fun none => ?_
    · exact .inr (.inr ⟨by omega, by omega, rfl, unmoved⟩)
    · have zero : (k.procs p).sz = 0 := not_not.mp none
      refine Sat.bind (Sat.update (Q := fun _ s => (s.procs p).sz = 0) ?_)
        fun _ k'' size => Sat.pure (.inr (.inl ⟨by omega, zero, rfl, size⟩))
      rw [zero]
      exact setProc_sz k' p 0
  · have larger : max (k.procs p).sz ((k.procs p).sz + n).toNat = ((k.procs p).sz + n).toNat := by
      omega
    rw [larger] at enough ⊢
    rw [if_pos (by omega)]
    exact Sat.pure (.inl ⟨enough, rfl⟩)

/-- Shrinking: success is reported, and the size is never the one asked for. -/
theorem Fitted.shrink (fitted : Fitted L k p own l t top) (neg : n < 0) (int : -2 ^ 31 ≤ n) :
    Sat (growproc L p n) k (fun _ => False) fun r k' =>
      r = 0 ∧ ((k'.procs p).sz : ℤ) ≠ (k.procs p).sz + n := by
  have small := fitted.size_le
  have below : (((k.procs p).sz + n) % UINT).toNat < UINT := by
    simp only [UINT]
    omega
  unfold growproc
  refine Sat.bind (Sat.gets (Q := fun proc s => proc = k.procs p ∧ k = s) ⟨rfl, rfl⟩) ?_
  rintro _ _ ⟨rfl, rfl⟩
  dsimp only
  rw [fitted.uint, if_neg (by omega), if_pos neg]
  refine Sat.bind (fitted.uvmalloc _ below) ?_
  rintro grown k' ⟨procs, result⟩
  refine Sat.bind (Sat.update (Q := fun _ s => (s.procs p).sz = grown % UINT) (setProc_sz k' p _))
    fun _ k'' size => Sat.pure ⟨rfl, ?_⟩
  rw [size]
  by_cases exceeds : ((k.procs p).sz : ℤ) + n < 0
  · omega
  · have wrap : (((k.procs p).sz + n) % UINT).toNat = ((k.procs p).sz + n).toNat := by
      rw [Int.emod_eq_of_lt (by omega)]
      simp only [UINT]
      omega
    rw [wrap] at result
    have same : grown = (k.procs p).sz := by
      rcases result with ⟨-, -, grows, -⟩ | ⟨value, -⟩ <;> omega
    rw [same, fitted.uint]
    omega

/-- Not moving at all. -/
theorem Fitted.stay (fitted : Fitted L k p own l t top) :
    Sat (growproc L p 0) k (fun _ => False) fun r k' => r = 0 ∧ Moved k p 0 k' := by
  unfold growproc
  refine Sat.bind (Sat.gets (Q := fun proc s => proc = k.procs p ∧ k = s) ⟨rfl, rfl⟩) ?_
  rintro _ _ ⟨rfl, rfl⟩
  dsimp only
  rw [fitted.uint, if_neg (lt_irrefl _), if_neg (lt_irrefl _)]
  refine Sat.bind (Sat.update (Q := fun _ s => s.vm = k.vm ∧ (s.procs p).sz = (k.procs p).sz)
    ⟨rfl, setProc_sz k p _⟩) ?_
  rintro _ k' ⟨vm, size⟩
  refine Sat.pure ⟨rfl, by rw [size, Int.add_zero], fun u inside => ?_, fun a _ => by rw [vm], ?_⟩
  · rw [vm, size, fitted.table, fitted.space.mapsPage_iff fitted.clear inside]
  · intro a above below
    rw [size] at below
    omega

/-- `growproc` is right exactly when there is nothing to do, or when it is asked to grow
some memory further than there are free pages for. -/
theorem growproc_right_iff (fitted : Fitted L k p own l t top) (int : -2 ^ 31 ≤ n ∧ n < 2 ^ 31) :
    (∃ r k', growproc L p n k = .ok (r, k') ∧ GrowsRight k p n r k') ↔
      n = 0 ∨ (0 < n ∧ 0 < (k.procs p).sz ∧ ¬ EnoughFree k p n) := by
  rcases lt_trichotomy n 0 with neg | rfl | pos
  · obtain ⟨r, k', runs, rfl, size⟩ := (fitted.shrink neg int.1).returns
    refine iff_of_false ?_ (by omega)
    rintro ⟨r', k'', runs', right⟩
    rw [runs] at runs'
    simp only [Except.ok.injEq, Prod.mk.injEq] at runs'
    obtain ⟨rfl, rfl⟩ := runs'
    rcases right.outcome with ⟨-, moved⟩ | ⟨minus, -⟩
    · exact size moved.size
    · omega
  · obtain ⟨r, k', runs, rfl, moved⟩ := fitted.stay.returns
    refine iff_of_true ⟨0, k', runs, ⟨.inl ⟨rfl, moved⟩, ?_, ?_, ?_⟩⟩ (.inl rfl)
    · exact fun pos => absurd pos (lt_irrefl _)
    · exact fun neg => absurd neg (lt_irrefl _)
    · exact fun neg => absurd neg (lt_irrefl _)
  · obtain ⟨r, k', runs, result⟩ := (fitted.grow pos int.2).returns
    constructor
    · rintro ⟨r', k'', runs', right⟩
      rw [runs] at runs'
      simp only [Except.ok.injEq, Prod.mk.injEq] at runs'
      obtain ⟨rfl, rfl⟩ := runs'
      rcases result with ⟨enough, minus⟩ | ⟨-, none, zero, size⟩ | ⟨short, some_, -⟩
      · have done := right.grows pos enough
        omega
      · rcases right.outcome with ⟨-, moved⟩ | ⟨minus, -⟩
        · have size' := moved.size
          omega
        · omega
      · exact .inr ⟨pos, some_, short⟩
    · rintro (zero | ⟨-, some_, short⟩)
      · omega
      · rcases result with ⟨enough, -⟩ | ⟨-, none, -⟩ | ⟨-, -, minus, unmoved⟩
        · exact absurd enough short
        · omega
        · refine ⟨r, k', runs, ⟨.inr ⟨minus, unmoved⟩, fun _ enough => absurd enough short, ?_, ?_⟩⟩
          · intro neg
            omega
          · intro neg
            omega

section Sample

/-- A process without user memory, and some free pages. -/
def freshKernel (free : ℕ) : Kernel :=
  { bootKernel free with procs := fun _ => { state := .running, pagetable := PGSIZE * 524290 } }

def freshOwner (free m : ℕ) : Owner :=
  if m = 524290 then .root 0
  else if FIRSTPG ≤ m ∧ m < FIRSTPG + free then .free
  else .kernel

theorem freshKernel_fitted {free : ℕ} (few : free ≤ 32756) :
    Fitted smallLayout (freshKernel free) 0 (freshOwner free) (List.range' FIRSTPG free) 524290
      (fun _ => 0) := by
  have booted := bootKernel_booted free few
  have empty : ∀ i < 512, (bootVm free).mem (512 * 524290 + i) = 0 := by
    intro i small
    refine if_neg ?_
    rintro ⟨-, above, -⟩
    unfold FIRSTPG at above
    omega
  have owners : ∀ m, freshOwner free m = .root 0 ∨ freshOwner free m = .free ∨
      freshOwner free m = .kernel := by
    intro m
    unfold freshOwner
    split_ifs <;> simp
  have none : ∀ u, ¬ u < pages 0 := by
    intro u
    simp [pages, PGSIZE]
  have notL1 : ∀ m i, freshOwner free m ≠ .l1 524290 i := by
    intro m i here
    rcases owners m with other | other | other <;> simp [other] at here
  have notL0 : ∀ m i j, freshOwner free m ≠ .l0 524290 i j := by
    intro m i j here
    rcases owners m with other | other | other <;> simp [other] at here
  refine ⟨rfl, ⟨⟨booted.links, booted.nodup, ?_, ?_⟩, ⟨⟨0, rfl⟩, ?_, ?_, ?_, ?_, ?_⟩, ⟨?_, ?_, ?_, ?_⟩⟩,
    ?_, fun _ _ => rfl⟩
  · intro m
    rw [List.mem_range'_1]
    unfold freshOwner FIRSTPG
    by_cases root : m = 524290
    · rw [if_pos root]
      simp [root]
    · rw [if_neg root]
      split_ifs with inside <;> simp [inside]
  · intro m used
    by_cases root : m = 524290
    · have first : smallLayout.end_ = PGSIZE * 524289 := by decide
      rw [root, Managed, first, PHYSTOP_eq]
      exact ⟨Nat.mul_le_mul_left _ (by omega), Nat.mul_lt_mul_of_pos_left (by omega) (by decide)⟩
    · refine booted.managed m (List.mem_range'_1.mpr ?_)
      by_contra outside
      exact used (by simp [freshOwner, root, outside])
  · exact fun i small => .inl ⟨empty i small, fun m => notL1 m i⟩
  · exact fun i m here => absurd here (notL1 m i)
  · exact fun i j m here => absurd here (notL0 m i j)
  · exact fun i m here => absurd here (notL1 m i)
  · exact fun i j m here => absurd here (notL0 m i j)
  · exact fun u inside => absurd inside (none u)
  · exact fun u inside => absurd inside (none u)
  · intro f u here
    rcases owners f with other | other | other <;> simp [other] at here
  · intro u small _
    unfold leaf
    exact if_pos (empty _ (by omega))
  · intro m here
    rcases owners m with other | other | other <;> simp [other] at here

theorem growproc_right_zero : Fitted smallLayout (freshKernel 3) 0 (freshOwner 3)
      (List.range' FIRSTPG 3) 524290 (fun _ => 0) ∧
    ∃ r k', growproc smallLayout 0 0 (freshKernel 3) = .ok (r, k') ∧
      GrowsRight (freshKernel 3) 0 0 r k' := by
  have fitted := freshKernel_fitted (show 3 ≤ 32756 by decide)
  exact ⟨fitted, (growproc_right_iff fitted (by decide)).mpr (.inl rfl)⟩

/-- Three free pages are enough for the first page of user memory and its tables, and yet
growing by one page fails. -/
theorem growproc_fails : Fitted smallLayout (freshKernel 3) 0 (freshOwner 3)
      (List.range' FIRSTPG 3) 524290 (fun _ => 0) ∧
    ¬ ∃ r k', growproc smallLayout 0 4096 (freshKernel 3) = .ok (r, k') ∧
      GrowsRight (freshKernel 3) 0 4096 r k' := by
  have fitted := freshKernel_fitted (show 3 ≤ 32756 by decide)
  have enough : EnoughFree (freshKernel 3) 0 4096 := by
    rw [fitted.enough_iff]
    decide +kernel
  refine ⟨fitted, ?_⟩
  rintro ⟨r, k', runs, right⟩
  have done := right.grows (by decide) enough
  rcases (fitted.grow (by decide) (by decide)).ok runs with ⟨-, minus⟩ | ⟨short, -⟩ | ⟨short, -⟩
  · omega
  · exact short enough
  · exact short enough

end Sample

end HaloOS
