import HaloOS.Kernel.Image

/-! The user stack that `exec` builds: copies of the arguments, one below the other, and below
them the array of their addresses. What the stack has to look like is said by `Stacked` and
`storeArgs`; `argLoop` and `pushArgs` are specified by them. -/

namespace HaloOS

open Lib

variable {L : Layout} {v v' : Vm} {own : ℕ → Owner} {l : List ℕ} {t f g u N a i j base sp low ptr : ℕ}
  {S : ℕ → Prop} {data : Mem} {flags : ℕ → ℕ} {argv : List (List Byte)} {ptrs ustack : List ℕ}
  {arg : List Byte}

/-- The copies of `argv` start at `ptrs`, each below the one before, from `sp` down to `low`. -/
def Stacked (base : ℕ) : List (List Byte) → List ℕ → ℕ → ℕ → Prop
  | [], [], sp, low => low = sp
  | arg :: argv, ptr :: ptrs, sp, low => ptr % 16 = 0 ∧ base ≤ ptr ∧ ptr + (arg.length + 1) ≤ sp ∧
      Stacked base argv ptrs ptr low
  | _, _, _, _ => False

/-- Memory with NUL-terminated copies of `argv` at `ptrs`. -/
def storeArgs : List (List Byte) → List ℕ → Mem → Mem
  | arg :: argv, ptr :: ptrs, data => storeArgs argv ptrs (data.store ptr (arg ++ [0]))
  | _, _, data => data

theorem storeArgs_cons : storeArgs (arg :: argv) (ptr :: ptrs) data =
    storeArgs argv ptrs (data.store ptr (arg ++ [0])) := rfl

/-- The address lies in the copy of one of the arguments. -/
def InCopy (argv : List (List Byte)) (ptrs : List ℕ) (a : ℕ) : Prop :=
  ∃ (i : ℕ) (arg : List Byte) (ptr : ℕ), argv[i]? = some arg ∧ ptrs[i]? = some ptr ∧ ptr ≤ a ∧ a < ptr + (arg.length + 1)

/-- The room that copies of `argv` take on the stack. -/
def room (argv : List (List Byte)) : ℕ := (argv.map fun arg => (arg.length + 1 + 15) / 16 * 16).sum

theorem room_cons : room (arg :: argv) = (arg.length + 1 + 15) / 16 * 16 + room argv := rfl

/-- The bytes of `ustack` with its terminating 0. -/
def ustackBytes (ptrs : List ℕ) : List Byte :=
  (ptrs ++ [0]).flatMap fun w => (List.range 8).map (leByte w)

section Layout

theorem Stacked.length (stacked : Stacked base argv ptrs sp low) : ptrs.length = argv.length := by
  induction argv generalizing ptrs sp with
  | nil =>
    cases ptrs with
    | nil => rfl
    | cons => exact stacked.elim
  | cons arg argv ih =>
    cases ptrs with
    | nil => exact stacked.elim
    | cons ptr ptrs => simpa using ih stacked.2.2.2

theorem Stacked.low_le (stacked : Stacked base argv ptrs sp low) : low ≤ sp := by
  induction argv generalizing ptrs sp with
  | nil =>
    cases ptrs with
    | nil => exact le_of_eq stacked
    | cons => exact stacked.elim
  | cons arg argv ih =>
    cases ptrs with
    | nil => exact stacked.elim
    | cons ptr ptrs =>
      obtain ⟨-, -, fits, rest⟩ := stacked
      have := ih rest
      omega

/-- Every copy starts at a multiple of 16 above `base` and ends below `sp`. -/
theorem Stacked.place (stacked : Stacked base argv ptrs sp low) (here : argv[i]? = some arg)
    (there : ptrs[i]? = some ptr) :
    ptr % 16 = 0 ∧ base ≤ ptr ∧ low ≤ ptr ∧ ptr + (arg.length + 1) ≤ sp := by
  induction argv generalizing ptrs sp i with
  | nil => simp at here
  | cons first argv ih =>
    cases ptrs with
    | nil => simp at there
    | cons next ptrs =>
      obtain ⟨aligned, above, fits, rest⟩ := stacked
      cases i with
      | zero =>
        obtain rfl : first = arg := by simpa using here
        obtain rfl : next = ptr := by simpa using there
        exact ⟨aligned, above, rest.low_le, fits⟩
      | succ i =>
        obtain ⟨aligned', above', over', fits'⟩ := ih rest (by simpa using here) (by simpa using there)
        exact ⟨aligned', above', over', by omega⟩

/-- Later copies lie below earlier ones. -/
theorem Stacked.below {later : List Byte} {next : ℕ} (stacked : Stacked base argv ptrs sp low)
    (order : i < j) (there : ptrs[i]? = some ptr) (here' : argv[j]? = some later)
    (there' : ptrs[j]? = some next) : next + (later.length + 1) ≤ ptr := by
  induction argv generalizing ptrs sp i j with
  | nil => simp at here'
  | cons first argv ih =>
    cases ptrs with
    | nil => simp at there
    | cons head ptrs =>
      obtain ⟨-, -, -, rest⟩ := stacked
      cases j with
      | zero => omega
      | succ j =>
        cases i with
        | zero =>
          obtain rfl : head = ptr := by simpa using there
          exact (rest.place (by simpa using here') (by simpa using there')).2.2.2
        | succ i =>
          exact ih rest (i := i) (j := j) (by omega) (by simpa using there) (by simpa using here')
            (by simpa using there')

/-- Outside of the copies memory is as before. -/
theorem storeArgs_outside (outside : ¬ InCopy argv ptrs a) : storeArgs argv ptrs data a = data a := by
  induction argv generalizing ptrs data with
  | nil => rfl
  | cons arg argv ih =>
    cases ptrs with
    | nil => rfl
    | cons ptr ptrs =>
      have later : ¬ InCopy argv ptrs a := by
        rintro ⟨i, arg', ptr', here, there, inside⟩
        exact outside ⟨i + 1, arg', ptr', by simpa using here, by simpa using there, inside⟩
      have first : ¬ (ptr ≤ a ∧ a < ptr + (arg ++ [0]).length) := by
        rintro inside
        exact outside ⟨0, arg, ptr, rfl, rfl, inside.1, by simpa using inside.2⟩
      rw [storeArgs_cons, ih later, Mem.store_of_not_mem _ first]

/-- Every copy is there: the later ones do not reach it. -/
theorem storeArgs_copy (stacked : Stacked base argv ptrs sp low) (here : argv[i]? = some arg)
    (there : ptrs[i]? = some ptr) (inside : j < arg.length + 1) :
    storeArgs argv ptrs data (ptr + j) = (arg ++ [0]).getD j 0 := by
  induction argv generalizing ptrs sp i data with
  | nil => simp at here
  | cons first argv ih =>
    cases ptrs with
    | nil => simp at there
    | cons head ptrs =>
      cases i with
      | zero =>
        obtain rfl : first = arg := by simpa using here
        obtain rfl : head = ptr := by simpa using there
        rw [storeArgs_cons, storeArgs_outside, Mem.store_of_mem _ (by simpa using inside)]
        rintro ⟨i, later, next, here', there', -, beyond⟩
        have := stacked.below (i := 0) (j := i + 1) (by omega) rfl (by simpa using here') (by simpa using there')
        omega
      | succ i => exact ih stacked.2.2.2 (by simpa using here) (by simpa using there)

theorem ustackBytes_length (ptrs : List ℕ) : (ustackBytes ptrs).length = 8 * (ptrs.length + 1) := by
  simp only [ustackBytes, List.length_flatMap, List.length_map, List.length_range, List.map_const',
    List.sum_replicate_nat, List.length_append, List.length_singleton, Nat.mul_comm]

/-- Byte `k` of word `i` of the array. -/
theorem ustackBytes_getD (words : List ℕ) {k : ℕ} (small : i < words.length) (low : k < 8) :
    (words.flatMap fun w => (List.range 8).map (leByte w)).getD (8 * i + k) 0 =
      leByte (words.getD i 0) k := by
  induction words generalizing i with
  | nil => simp at small
  | cons w words ih =>
    rw [List.flatMap_cons]
    cases i with
    | zero =>
      rw [List.getD_append _ _ _ _ (by simpa using low)]
      simp [low]
    | succ i =>
      rw [List.getD_append_right _ _ _ _ (by simp; omega)]
      have rest : 8 * (i + 1) + k - ((List.range 8).map (leByte w)).length = 8 * i + k := by
        simp
        omega
      rw [rest, ih (by simpa using small)]
      simp

theorem Stacked.le_low (stacked : Stacked base argv ptrs sp low) (under : base ≤ sp) : base ≤ low := by
  induction argv generalizing ptrs sp with
  | nil =>
    cases ptrs with
    | nil => exact le_of_le_of_eq under stacked.symm
    | cons => exact stacked.elim
  | cons arg argv ih =>
    cases ptrs with
    | nil => exact stacked.elim
    | cons ptr ptrs => exact ih stacked.2.2.2 stacked.2.1

/-- The copies take what they are rounded up to. -/
theorem Stacked.room_le (stacked : Stacked base argv ptrs sp low) (aligned : sp % 16 = 0) :
    low + room argv ≤ sp := by
  induction argv generalizing ptrs sp with
  | nil =>
    cases ptrs with
    | nil => exact le_of_eq stacked
    | cons => exact stacked.elim
  | cons arg argv ih =>
    cases ptrs with
    | nil => exact stacked.elim
    | cons ptr ptrs =>
      obtain ⟨aligned', -, fits, rest⟩ := stacked
      have := ih rest aligned'
      rw [room_cons]
      omega

end Layout

section Pushing

/-- A stack pointer below which `n` bytes fit without leaving memory has moved down by them. -/
theorem pushStack_fits {n top : ℕ} (small : top < 2 ^ 60) (under : sp ≤ top)
    (fits : pushStack sp n + n ≤ top) : pushStack sp n % 16 = 0 ∧ pushStack sp n + n ≤ sp := by
  unfold pushStack at fits ⊢
  dsimp only at fits ⊢
  have short : n % WORD = n := Nat.mod_eq_of_lt (by simp only [WORD]; omega)
  rw [short] at fits ⊢
  by_cases room : n ≤ sp
  · have moved : (sp + WORD - n) % WORD = sp - n := by
      rw [show sp + WORD - n = sp - n + WORD by omega, Nat.add_mod_right]
      exact Nat.mod_eq_of_lt (by simp only [WORD]; omega)
    rw [moved] at fits ⊢
    omega
  · have wrapped : (sp + WORD - n) % WORD = sp + WORD - n :=
      Nat.mod_eq_of_lt (by simp only [WORD]; omega)
    rw [wrapped] at fits
    simp only [WORD] at fits
    omega

/-- With room left the stack pointer moves down by the rounded number. -/
theorem pushStack_eq {n : ℕ} (small : sp < 2 ^ 60) (aligned : sp % 16 = 0) (fits : n ≤ sp) :
    pushStack sp n = sp - (n + 15) / 16 * 16 := by
  unfold pushStack
  dsimp only
  have short : n % WORD = n := Nat.mod_eq_of_lt (by simp only [WORD]; omega)
  have moved : (sp + WORD - n) % WORD = sp - n := by
    rw [show sp + WORD - n = sp - n + WORD by omega, Nat.add_mod_right]
    exact Nat.mod_eq_of_lt (by simp only [WORD]; omega)
  rw [short, moved]
  omega

/-- `walkaddr` finds a page that is open to the user. -/
theorem Space.walkaddr_open {E : Stop → Prop} (space : Space L v own l t S (topLeaves L f))
    (owner : own g = .user t u) (entry : leaf v.mem t u = g * 1024 + 31) :
    Sat (HaloOS.walkaddr (PGSIZE * t) (PGSIZE * u)) v E fun pa s => s = v ∧ pa = PGSIZE * g := by
  have managed := space.pool.managed g (by simp [owner])
  have bound := space.maps.bound u (space.maps.user g u owner).1
  have bits : ∀ mask, mask < 1024 → (g * 1024 + 31) &&& mask = 31 &&& mask := fun mask low => entry_and g low
  unfold HaloOS.walkaddr
  rw [if_neg (by simp only [PGSIZE, MAXVA, TRAPFRAMEPG] at *; omega)]
  refine Sat.bind (walk_find space.pool space.tree (by simp only [TRAPFRAMEPG] at bound; omega)) ?_
  rintro r s ⟨rfl, ⟨-, none⟩ | ⟨m, bottom, rfl⟩⟩
  · rw [entry] at none
    omega
  have above := (space.pool.managed m (by simp [bottom])).pos
  refine Sat.bind (Sat.stopIf (Q := fun _ s' => s = s')
    (fun zero => by simp only [PGSIZE] at zero; omega) fun _ => rfl) ?_
  rintro _ _ rfl
  refine Sat.bind (Sat.gets (Q := fun e s' => e = g * 1024 + 31 ∧ s = s')
    ⟨by rw [load_entry, ← space.tree.leaf_l0 bottom, entry], rfl⟩) ?_
  rintro _ _ ⟨rfl, rfl⟩
  refine Sat.bind (Sat.stopIf (Q := fun _ s' => s = s') (fun bad => ?_) fun _ => rfl) ?_
  · rw [bits PTE_V (by decide)] at bad
    exact absurd bad (by decide)
  rintro _ _ rfl
  refine Sat.bind (Sat.stopIf (Q := fun _ s' => s = s') (fun bad => ?_) fun _ => rfl) ?_
  · rw [bits PTE_U (by decide)] at bad
    exact absurd bad (by decide)
  rintro _ _ rfl
  rw [entry_page managed.lt (by decide)]
  have some := managed.pos
  refine Sat.bind (Sat.stopIf (Q := fun _ s' => s = s')
    (fun zero => by simp only [PGSIZE] at zero; omega) fun _ => rfl) ?_
  rintro _ _ rfl
  exact Sat.pure ⟨rfl, rfl⟩

/-- `walkaddr` finds no page that is closed to the user. -/
theorem Space.walkaddr_closed (space : Space L v own l t S (topLeaves L f)) (image : Image v own t data flags)
    (closed : ¬ (S u ∧ flags u = 31)) :
    Sat (HaloOS.walkaddr (PGSIZE * t) (PGSIZE * u)) v Gentle fun pa s => v = s ∧ pa = 0 := by
  unfold HaloOS.walkaddr
  refine Sat.ite (fun _ => Sat.pure ⟨rfl, rfl⟩) fun low => ?_
  have small : u < 2 ^ 26 := by
    simp only [PGSIZE, MAXVA] at low
    omega
  have shut : leaf v.mem t u &&& PTE_U = 0 := by
    by_cases inside : S u
    · obtain ⟨g, owner⟩ := space.maps.frame u inside
      have either := (space.maps.user g u owner).2
      have entry := image.entry g u owner
      have differ : flags u ≠ 31 := fun opened => closed ⟨inside, opened⟩
      have flag : flags u = 15 := by omega
      rw [entry, flag, entry_and g (by decide)]
      decide
    · rw [space.maps.other u (by omega) inside, topLeaves_closed]
  refine Sat.bind (walk_find space.pool space.tree small) ?_
  rintro r s ⟨rfl, found⟩
  refine Sat.bind (Sat.stopIf (Q := fun _ s' => s = s' ∧ r ≠ 0) (fun _ => by decide)
    fun nonzero => ⟨rfl, nonzero⟩) ?_
  rintro _ _ ⟨rfl, nonzero⟩
  obtain ⟨zero, -⟩ | ⟨m, bottom, rfl⟩ := found
  · exact absurd zero nonzero
  refine Sat.bind (Sat.gets (Q := fun e s' => e = leaf s.mem t u ∧ s = s')
    ⟨by rw [load_entry, ← space.tree.leaf_l0 bottom], rfl⟩) ?_
  rintro _ _ ⟨rfl, rfl⟩
  refine Sat.bind (Sat.stopIf (Q := fun _ s' => s = s') (fun _ => by decide) fun _ => rfl) ?_
  rintro _ _ rfl
  exact Sat.bind (Sat.stopIf (Q := fun _ _ => False) (fun _ => by decide) fun open_ => open_ shut)
    fun _ _ bad => bad.elim

/-- All addresses of the stretch are in pages that are open to the user. -/
def OpenTo (S : ℕ → Prop) (flags : ℕ → ℕ) (a n : ℕ) : Prop :=
  ∀ x, a ≤ x → x < a + n → S (x / PGSIZE) ∧ flags (x / PGSIZE) = 31

/-- `copyoutpg` either reports a failure or puts all bytes into user pages. It fails only where a page is
not open to the user, and writes nothing outside the stretch it is given. -/
theorem Space.copyout {fuel dstva : ℕ} {src : List Byte} (space : Space L v own l t S (topLeaves L f))
    (image : Image v own t data flags) (enough : src.length ≤ fuel) :
    Sat (HaloOS.copyoutLoop (PGSIZE * t) fuel dstva src) v
      (fun e => Gentle e ∧ ¬ OpenTo S flags dstva src.length) fun ok s =>
      Space L s own l t S (topLeaves L f) ∧ Within t own v own s ∧ (OpenTo S flags dstva src.length → ok = true) ∧
        (∃ data', Image s own t data' flags ∧ ∀ a, ¬ (dstva ≤ a ∧ a < dstva + src.length) → data' a = data a) ∧
        (ok = true → OpenTo S flags dstva src.length ∧ Image s own t (data.store dstva src) flags) := by
  have done : ∀ {v : Vm} {data : Mem} {dstva : ℕ} {src : List Byte}, src = [] →
      Image v own t data flags → OpenTo S flags dstva src.length ∧ Image v own t (data.store dstva src) flags := by
    rintro v data dstva _ rfl image
    refine ⟨fun a above below => ?_, by rwa [Mem.store_nil]⟩
    rw [List.length_nil] at below
    omega
  induction fuel generalizing v data dstva src with
  | zero =>
    exact Sat.pure ⟨space, .refl, fun _ => rfl, ⟨data, image, fun _ _ => rfl⟩,
      fun _ => done (List.length_eq_zero_iff.mp (by omega)) image⟩
  | succ fuel ih =>
    unfold HaloOS.copyoutLoop
    refine Sat.ite (fun none => Sat.pure ⟨space, .refl, fun _ => rfl, ⟨data, image, fun _ _ => rfl⟩,
      fun _ => done none image⟩) fun some => ?_
    rw [PGROUNDDOWN, Nat.mul_comm]
    have positive := List.length_pos_of_ne_nil some
    refine Sat.bind (Q := fun pa s => v = s ∧ ((pa = 0 ∧ ¬ OpenTo S flags dstva src.length) ∨
      ∃ g, pa = PGSIZE * g ∧ own g = .user t (dstva / PGSIZE) ∧ flags (dstva / PGSIZE) = 31)) ?_ ?_
    · by_cases here : S (dstva / PGSIZE) ∧ flags (dstva / PGSIZE) = 31
      · obtain ⟨g, owner⟩ := space.maps.frame _ here.1
        refine (space.walkaddr_open owner (by rw [image.entry g _ owner, here.2])).mono ?_
        rintro pa s ⟨rfl, rfl⟩
        exact ⟨rfl, .inr ⟨g, rfl, owner, here.2⟩⟩
      · have closed : ¬ OpenTo S flags dstva src.length :=
          fun opened => here (opened dstva (le_refl _) (by omega))
        refine ((space.walkaddr_closed image here).weaken fun _ gentle => ⟨gentle, closed⟩).mono ?_
        rintro pa s ⟨rfl, zero⟩
        exact ⟨rfl, .inl ⟨zero, closed⟩⟩
    rintro pa s ⟨rfl, ⟨rfl, closed⟩ | ⟨g, rfl, owner, opened⟩⟩
    · rw [if_pos rfl]
      exact Sat.pure ⟨space, .refl, fun opened => absurd opened closed, ⟨data, image, fun _ _ => rfl⟩,
        fun failed => by simp at failed⟩
    have above := (space.pool.managed g (by simp [owner])).pos
    rw [if_neg (by simp only [PGSIZE]; omega)]
    refine Sat.bind (Sat.update (Q := fun _ s' => v.writeBytes _ _ = s') rfl) ?_
    rintro _ _ rfl
    have split := Nat.div_add_mod dstva PGSIZE
    have small := Nat.mod_lt dstva (show 0 < PGSIZE by decide)
    generalize page : dstva / PGSIZE = u at *
    generalize offset : dstva - PGSIZE * u = off at *
    generalize count : min (PGSIZE - off) src.length = n at *
    have taken : (src.take n).length = n := by
      rw [List.length_take]
      omega
    have left : (src.drop n).length = src.length - n := List.length_drop
    have inside : off + (src.take n).length ≤ PGSIZE := by omega
    obtain ⟨space', within⟩ := space.scribble (.inr ⟨u, owner⟩) (keeps_writeBytes v inside) rfl
    have image' := image.write space owner inside
    have start : PGSIZE * u + off = dstva := by omega
    rw [start] at image'
    have rest : OpenTo S flags dstva src.length → OpenTo S flags (PGSIZE * u + PGSIZE) (src.drop n).length :=
      fun opened x low high => opened x (by omega) (by omega)
    refine ((@ih _ _ (PGSIZE * u + PGSIZE) _ space' image' (by omega)).weaken
      fun _ stop => ⟨stop.1, fun opened => stop.2 (rest opened)⟩).mono ?_
    rintro ok s' ⟨space'', within', succeeds, ⟨data', kept, outside⟩, copied⟩
    refine ⟨space'', within.trans within', fun opened => succeeds (rest opened), ⟨data', kept, fun a apart => ?_⟩,
      fun succeeded => ?_⟩
    · rw [outside a (by omega), Mem.store_of_not_mem _ (by omega)]
    obtain ⟨pages, image''⟩ := copied succeeded
    constructor
    · intro a from_ below
      by_cases first : a < PGSIZE * u + PGSIZE
      · have same : a / PGSIZE = u := by
          simp only [PGSIZE] at *
          omega
        rw [same]
        exact ⟨(space.maps.user g u owner).1, opened⟩
      · exact pages a (by omega) (by omega)
    · by_cases last : src.drop n = []
      · have whole : src.take n = src := List.take_of_length_le (List.drop_eq_nil_iff.mp last)
        rw [last, Mem.store_nil, whole] at image''
        exact image''
      · have more := List.length_pos_of_ne_nil last
        rw [show PGSIZE * u + PGSIZE = dstva + (src.take n).length by omega, Mem.store_append,
          List.take_append_drop] at image''
        exact image''

/-- The same for memory whose user pages are the first `N`. -/
theorem Space.copyout_below {dstva : ℕ} {src : List Byte}
    (space : Space L v own l t (· < N) (topLeaves L f)) (image : Image v own t data flags) :
    Sat (HaloOS.copyoutpg (PGSIZE * t) dstva src) v
      (fun e => Gentle e ∧ ¬ OpenTo (· < N) flags dstva src.length) fun ok s =>
      Space L s own l t (· < N) (topLeaves L f) ∧ Within t own v own s ∧
        (OpenTo (· < N) flags dstva src.length → ok = true) ∧ (ok = true →
        (src ≠ [] → dstva + src.length ≤ PGSIZE * N) ∧ Image s own t (data.store dstva src) flags) := by
  refine (space.copyout image (le_refl _)).mono ?_
  rintro ok s ⟨space', within, succeeds, -, copied⟩
  refine ⟨space', within, succeeds, fun succeeded => ?_⟩
  obtain ⟨pages, image'⟩ := copied succeeded
  refine ⟨fun some => ?_, image'⟩
  have positive := List.length_pos_of_ne_nil some
  have last : (dstva + src.length - 1) / PGSIZE < N := (pages _ (by omega) (by omega)).1
  rw [Nat.div_lt_iff_lt_mul (by decide), Nat.mul_comm] at last
  omega

theorem Space.top_lt (space : Space L v own l t (· < N) (topLeaves L f)) : PGSIZE * N < 2 ^ 60 := by
  have few := space.maps.pages_le space.pool fun _ below => below
  have most : PGSIZE * N ≤ PGSIZE * 32768 := Nat.mul_le_mul_left _ few
  exact Nat.lt_of_le_of_lt most (by norm_num [PGSIZE])

/-- The copies of `argv` fit between `base` and `sp`, in pages that are open to the user. -/
structure Fits (S : ℕ → Prop) (flags : ℕ → ℕ) (base : ℕ) (argv : List (List Byte)) (sp : ℕ) : Prop where
  aligned : sp % 16 = 0
  within : base + room argv ≤ sp
  opened : OpenTo S flags base (sp - base)

/-- The loop over the arguments. It goes through when the arguments are few enough and fit. -/
theorem Space.argLoop (space : Space L v own l t (· < N) (topLeaves L f))
    (image : Image v own t data flags) (under : sp ≤ PGSIZE * N) :
    Sat (HaloOS.argLoop (PGSIZE * t) base argv sp ustack) v
      (fun e => Gentle e ∧ ¬ (ustack.length + argv.length ≤ MAXARG ∧ Fits (· < N) flags base argv sp)) fun r s =>
      Space L s own l t (· < N) (topLeaves L f) ∧ Within t own v own s ∧ ∃ ptrs,
        r.2 = ustack ++ ptrs ∧ Stacked base argv ptrs sp r.1 ∧
        ustack.length + argv.length ≤ max MAXARG ustack.length ∧
        Image s own t (storeArgs argv ptrs data) flags := by
  induction argv generalizing v data sp ustack with
  | nil => exact Sat.pure ⟨space, .refl, [], by simp, rfl, by simp, image⟩
  | cons arg argv ih =>
    have small := space.top_lt
    unfold HaloOS.argLoop
    refine Sat.bind (Sat.stopIf (Q := fun _ s => v = s ∧ ustack.length < MAXARG)
      (fun many => ⟨by decide, ?_⟩) fun few => ⟨rfl, by omega⟩) ?_
    · rintro ⟨few, -⟩
      rw [List.length_cons] at few
      omega
    rintro _ _ ⟨rfl, few⟩
    dsimp only
    have exact_ : Fits (· < N) flags base (arg :: argv) sp →
        pushStack sp (arg.length + 1) = sp - (arg.length + 1 + 15) / 16 * 16 := by
      rintro ⟨aligned, within, -⟩
      rw [room_cons] at within
      exact pushStack_eq (by omega) aligned (by omega)
    refine Sat.bind (Sat.stopIf (Q := fun _ s => v = s ∧ base ≤ pushStack sp (arg.length + 1))
      (fun below => ⟨by decide, ?_⟩) fun above => ⟨rfl, by omega⟩) ?_
    · rintro ⟨-, fits⟩
      have within := fits.within
      rw [room_cons] at within
      rw [exact_ fits] at below
      omega
    rintro _ _ ⟨rfl, above⟩
    have bytes : (arg ++ [0]).length = arg.length + 1 := by simp
    have reach : Fits (· < N) flags base (arg :: argv) sp →
        OpenTo (· < N) flags (pushStack sp (arg.length + 1)) (arg ++ [0]).length := by
      intro fits a low high
      have within := fits.within
      rw [room_cons] at within
      rw [bytes] at high
      rw [exact_ fits] at low high
      exact fits.opened a (by omega) (by omega)
    refine Sat.bind ((space.copyout_below image).weaken
      fun _ stop => ⟨stop.1, fun both => stop.2 (reach both.2)⟩) ?_
    rintro copied v₁ ⟨space₁, within₁, succeeds, result⟩
    refine Sat.bind (Sat.stopIf (Q := fun _ s => v₁ = s ∧ copied = true) (fun failed => ⟨by decide, ?_⟩)
      fun failed => ⟨rfl, by simpa using failed⟩) ?_
    · rintro ⟨-, fits⟩
      rw [succeeds (reach fits)] at failed
      cases failed
    rintro _ _ ⟨rfl, succeeded⟩
    obtain ⟨inside, image₁⟩ := result succeeded
    have top := inside (by simp)
    rw [bytes] at top
    obtain ⟨aligned, below⟩ := pushStack_fits small under top
    have next : Fits (· < N) flags base (arg :: argv) sp →
        Fits (· < N) flags base argv (pushStack sp (arg.length + 1)) := by
      intro fits
      have within := fits.within
      rw [room_cons] at within
      rw [exact_ fits] at aligned ⊢
      exact ⟨aligned, by omega, fun a low high => fits.opened a low (by omega)⟩
    have fewer : ustack.length + (arg :: argv).length ≤ MAXARG →
        (ustack ++ [pushStack sp (arg.length + 1)]).length + argv.length ≤ MAXARG := by
      rw [List.length_append, List.length_singleton, List.length_cons]
      omega
    refine ((ih space₁ image₁ (by omega)).weaken
      fun _ stop => ⟨stop.1, fun both => stop.2 ⟨fewer both.1, next both.2⟩⟩).mono ?_
    rintro r s ⟨space₂, within₂, ptrs, words, stacked, bound, image₂⟩
    rw [List.length_append, List.length_singleton] at bound
    refine ⟨space₂, within₁.trans within₂, pushStack sp (arg.length + 1) :: ptrs, ?_, ?_, ?_, ?_⟩
    · rw [words, List.append_assoc]
      rfl
    · exact ⟨aligned, above, below, stacked⟩
    · rw [List.length_cons]
      omega
    · rw [storeArgs_cons]
      exact image₂

/-- What `pushArgs` leaves below `top`: the copies, and at `sp` the array of their addresses. -/
structure Pushed (base top : ℕ) (argv : List (List Byte)) (ptrs : List ℕ) (sp : ℕ) : Prop where
  count : argv.length < MAXARG
  aligned : sp % 16 = 0
  above : base ≤ sp
  copies : ∃ low, Stacked base argv ptrs top low ∧ sp + 8 * (argv.length + 1) ≤ low

/-- The reasons for which `exec` stops: it goes beyond `ustack` for one number of arguments only. -/
def ExecStop (argv : List (List Byte)) (e : Stop) : Prop :=
  Harmless e ∧ (e = .fault → argv.length = MAXARG ∧ room argv ≤ PGSIZE)

theorem Gentle.execStop (e : Stop) (gentle : Gentle e) : ExecStop argv e :=
  ⟨gentle.1, fun fault => absurd fault gentle.2⟩

theorem Space.pushArgs (space : Space L v own l t (· < N) (topLeaves L f))
    (image : Image v own t data flags) (page : sp = base + PGSIZE) (whole : base % PGSIZE = 0)
    (under : sp ≤ PGSIZE * N) :
    Sat (HaloOS.pushArgs (PGSIZE * t) base sp argv) v (ExecStop argv) fun r s =>
      Space L s own l t (· < N) (topLeaves L f) ∧ Within t own v own s ∧ ∃ ptrs,
        Pushed base sp argv ptrs r ∧
        Image s own t ((storeArgs argv ptrs data).store r (ustackBytes ptrs)) flags := by
  unfold HaloOS.pushArgs
  refine Sat.bind ((space.argLoop image under).weaken fun e stop => Gentle.execStop e stop.1) ?_
  rintro ⟨low, ustack⟩ v₁ ⟨space₁, within₁, ptrs, words, stacked, bound, image₁⟩
  dsimp only at words stacked ⊢
  rw [List.nil_append] at words
  subst words
  have length := stacked.length
  rw [List.length_nil, Nat.zero_add, Nat.max_zero] at bound
  refine Sat.bind (Sat.stopIf (Q := fun _ s => v₁ = s ∧ argv.length < MAXARG) ?_ ?_) ?_
  · intro many
    have room := stacked.room_le (by simp only [PGSIZE] at *; omega)
    have above := stacked.le_low (by omega)
    exact ⟨by decide, fun _ => ⟨by omega, by omega⟩⟩
  · exact fun few => ⟨rfl, by omega⟩
  rintro _ _ ⟨rfl, few⟩
  have bytes : (ustack ++ [0]).length * 8 = 8 * (argv.length + 1) := by
    simp only [List.length_append, List.length_singleton]
    omega
  rw [bytes]
  refine Sat.bind (Sat.stopIf (Q := fun _ s => v₁ = s ∧ base ≤ pushStack low (8 * (argv.length + 1)))
    (fun _ => Gentle.execStop _ (by decide)) fun above => ⟨rfl, by omega⟩) ?_
  rintro _ _ ⟨rfl, above⟩
  refine Sat.bind ((space₁.copyout_below image₁).weaken fun e stop => Gentle.execStop e stop.1) ?_
  rintro copied v₂ ⟨space₂, within₂, -, result⟩
  refine Sat.bind (Sat.stopIf (Q := fun _ s => v₂ = s ∧ copied = true)
    (fun _ => Gentle.execStop _ (by decide)) fun failed => ⟨rfl, by simpa using failed⟩) ?_
  rintro _ _ ⟨rfl, succeeded⟩
  obtain ⟨fits, image₂⟩ := result succeeded
  have size : (ustackBytes ustack).length = 8 * (argv.length + 1) := by
    rw [ustackBytes_length, length]
  change (ustackBytes ustack ≠ [] → _ + (ustackBytes ustack).length ≤ _) at fits
  have room := fits (List.ne_nil_of_length_pos (by omega))
  rw [size] at room
  obtain ⟨aligned, below⟩ := pushStack_fits space.top_lt (le_trans stacked.low_le under) room
  exact Sat.pure ⟨space₂, within₁.trans within₂, ustack,
    ⟨few, aligned, above, low, stacked, below⟩, image₂⟩

/-- With exactly `MAXARG` arguments that fit, the terminating word goes beyond `ustack`. -/
theorem Space.pushArgs_beyond (space : Space L v own l t (· < N) (topLeaves L f))
    (image : Image v own t data flags) (under : sp ≤ PGSIZE * N) (many : argv.length = MAXARG)
    (fits : Fits (· < N) flags base argv sp) :
    Sat (HaloOS.pushArgs (PGSIZE * t) base sp argv) v (· = .fault) fun _ _ => False := by
  unfold HaloOS.pushArgs
  refine Sat.bind ((space.argLoop image under).weaken fun e stop => absurd ⟨by simp [many], fits⟩ stop.2) ?_
  rintro ⟨low, ustack⟩ v₁ ⟨-, -, ptrs, words, stacked, -, -⟩
  dsimp only at words ⊢
  have length := stacked.length
  have all : MAXARG ≤ ustack.length := by
    rw [words, List.nil_append, length, many]
  exact Sat.bind (Sat.stopIf (Q := fun _ _ => False) (fun _ => rfl) fun few => few all) fun _ _ => False.elim

end Pushing

end HaloOS
