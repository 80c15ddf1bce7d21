import HaloOS.Vm.Mapping

/-! Growing user memory on any page table and with any free list. `uvmalloc` either maps all the
pages that are missing to fresh frames, or it gives every frame back and leaves the translations
as they were; `uvmdealloc` undoes it. -/

namespace HaloOS

open Lib

/-- How far a call has come that maps pages from `u` on to frames of the free list `l₀`: `frames`
are mapped, with permissions `perms` and holding `data`, the pages `inner` have become part of
the table and `l` is left. Nothing but free pages and the table has been written. -/
structure Filled (L : Layout) (v₀ v : Vm) (t : ℕ) (S : Set ℕ) (u : ℕ) (perms : ℕ → ℕ)
    (data : ℕ → ℕ → ℕ) (l₀ frames inner l : List ℕ) : Prop where
  table : PageTable L v t {m | m ∈ S ∨ m ∈ inner} l
  ledger : l₀.Perm (frames ++ (inner ++ l))
  values : ∀ k f, frames[k]? = some f →
    Radix.value pteCoding v.mem 2 t (u + k) = some (f * 1024 + (perms k ||| PTE_V))
  contents : ∀ k f, frames[k]? = some f → ∀ j < 512, v.mem (512 * f + j) = data k j
  blank : ∀ k < frames.length, Radix.value pteCoding v₀.mem 2 t (u + k) = none
  others : ∀ u' < 2 ^ 27, u' < u ∨ u + frames.length ≤ u' →
    Radix.value pteCoding v.mem 2 t u' = Radix.value pteCoding v₀.mem 2 t u'
  keeps : Keeps v₀ v fun m => m ∉ S ∧ m ∉ l₀

variable {L : Layout} {v₀ v v' : Vm} {S : Set ℕ} {t u n : ℕ} {perms : ℕ → ℕ} {data : ℕ → ℕ → ℕ}
  {l₀ l l' frames inner : List ℕ} {E : Stop → Prop}

theorem Filled.refl (table : PageTable L v t S l) : Filled L v v t S u perms data l [] [] l where
  table := by simpa using table
  ledger := by simp
  values := by simp
  contents := by simp
  blank := by simp
  others := fun _ _ _ => rfl
  keeps := fun _ _ => rfl

theorem append_singleton {α : Type} {xs : List α} {x y : α} {k : ℕ}
    (found : (xs ++ [x])[k]? = some y) : xs[k]? = some y ∨ (k = xs.length ∧ x = y) := by
  rcases Nat.lt_or_ge k xs.length with low | high
  · rw [List.getElem?_append_left low] at found
    exact .inl found
  · rw [List.getElem?_append_right high, List.getElem?_singleton] at found
    split at found
    · exact .inr ⟨by omega, Option.some.inj found⟩
    · cases found

section Progress

variable (start : PageTable L v₀ t S l₀) (mapped : Filled L v₀ v t S u perms data l₀ frames inner l)
include start mapped

theorem Filled.nodup : (frames ++ (inner ++ l)).Nodup := mapped.ledger.nodup_iff.mp start.nodup

theorem Filled.frame {f : ℕ} (member : f ∈ frames) :
    Managed L f ∧ f ∉ S ∧ f ∉ inner ∧ f ∉ l ∧ f ∈ l₀ := by
  have taken : f ∈ l₀ := mapped.ledger.mem_iff.mpr (List.mem_append_left _ member)
  have apart : f ∉ inner ++ l := List.disjoint_of_nodup_append (mapped.nodup start) member
  rw [List.mem_append, not_or] at apart
  exact ⟨start.managed f taken, start.apart f taken, apart.1, apart.2, taken⟩

/-- A page of the table or of the free list is no frame that has been mapped. -/
theorem Filled.keeps_frame {m f : ℕ} (spot : m ∈ S ∨ m ∈ inner ∨ m ∈ l) (member : f ∈ frames) :
    f ≠ m := by
  obtain ⟨-, outside, away, used, -⟩ := mapped.frame start member
  rintro rfl
  rcases spot with old | new | free
  · exact outside old
  · exact away new
  · exact used free

/-- Giving all frames back restores the translations. -/
theorem Filled.release (high : u + frames.length ≤ 2 ^ 26)
    (flags : ∀ k < frames.length, perms k < 1024 ∧ perms k ||| PTE_V ≠ PTE_V) :
    Sat (unmapLoop L (PGSIZE * t) true frames.length (PGSIZE * u)) v E fun _ v' =>
      Filled L v₀ v' t S u perms data l₀ [] inner (frames.reverse ++ l) := by
  have joined : ∀ k < frames.length, perms k ||| PTE_V < 1024 :=
    fun k low => Nat.or_lt_two_pow (n := 10) (flags k low).1 (by decide)
  have here : ∀ k (low : k < frames.length), frames[k]? = some frames[k] :=
    fun k low => List.getElem?_eq_getElem low
  have child : ∀ k (low : k < frames.length),
      pteCoding.child (frames[k]?.getD 0 * 1024 + (perms k ||| PTE_V)) = frames[k] := by
    intro k low
    obtain ⟨managed, -⟩ := mapped.frame start (List.getElem_mem low)
    change PTE2PA _ / PGSIZE = _
    rw [here k low, Option.getD_some, entry_page managed.lt (joined k low), page_number]
  have list : freedFrames true (fun k => frames[k]?.getD 0 * 1024 + (perms k ||| PTE_V)) frames.length l =
      frames.reverse ++ l := by
    unfold freedFrames
    rw [if_pos rfl]
    congr 2
    refine List.ext_getElem (by simp) fun k low _ => ?_
    simp only [List.length_map, List.length_range] at low
    simp only [List.getElem_map, List.getElem_range]
    exact child k low
  refine (mapped.table.unmapLoop
    (fun k => frames[k]?.getD 0 * 1024 + (perms k ||| PTE_V)) high ?_ ?_ fun _ => ?_).mono ?_
  · intro k low
    rw [mapped.values k _ (here k low), here k low, Option.getD_some]
  · intro k low
    rw [entry_flags _ (joined k low)]
    exact (flags k low).2
  · refine ⟨fun k low => ?_, fun k low => ?_, fun k low => ?_, fun j low k low' same => ?_⟩
    · rw [child k low]
      exact (mapped.frame start (List.getElem_mem low)).1
    · rw [child k low]
      obtain ⟨-, outside, away, -⟩ := mapped.frame start (List.getElem_mem low)
      exact not_or.mpr ⟨outside, away⟩
    · rw [child k low]
      exact (mapped.frame start (List.getElem_mem low)).2.2.2.1
    · rw [child j low, child k low'] at same
      exact (mapped.nodup start).of_append_left.getElem_inj_iff.mp same
  · rintro _ v' ⟨table, values, keeps⟩
    rw [list] at table
    refine ⟨table, ?_, by simp, by simp, by simp, fun u' small _ => ?_, ?_⟩
    · have turned : (frames ++ inner).Perm (inner ++ frames.reverse) :=
        List.perm_append_comm.trans (frames.reverse_perm.symm.append_left inner)
      have back := turned.append_right l
      rw [List.append_assoc, List.append_assoc] at back
      exact mapped.ledger.trans back
    · rw [values u' small]
      by_cases inside : u ≤ u' ∧ u' < u + frames.length
      · have blank := mapped.blank (u' - u) (by omega)
        rw [Nat.add_sub_cancel' inside.1] at blank
        rw [if_pos inside, blank]
      · rw [if_neg inside, mapped.others u' small (by omega)]
    · refine mapped.keeps.trans (keeps.mono ?_)
      rintro m ⟨outside, free⟩
      have away : m ∉ inner := by
        intro new
        exact free (mapped.ledger.mem_iff.mpr (by simp [new]))
      refine ⟨not_or.mpr ⟨outside, away⟩, fun _ k low => ?_⟩
      rw [child k low]
      rintro rfl
      exact free (mapped.frame start (List.getElem_mem low)).2.2.2.2

/-- One page: a frame from the front of the free list has been filled, and is mapped or given
back. -/
theorem Filled.round {α : Type} {next undo : Mio α} {Q : α → Vm → Prop} {v₁ : Vm} {address : ℕ}
    (spot : address = PGSIZE * (u + frames.length)) (high : u + frames.length < 2 ^ 26) (flags : perms frames.length < 1024)
    (blank : Radix.value pteCoding v₀.mem 2 t (u + frames.length) = none)
    (list : l = n :: l') (keeps : Keeps v v₁ (· ≠ n)) (free : FreeList L v₁ l')
    (filled : ∀ j < 512, v₁.mem (512 * n + j) = data frames.length j)
    (goOn : ∀ v' inner' l', Filled L v₀ v' t S u perms data l₀ (frames ++ [n]) inner' l' →
      Sat next v' E Q)
    (back : ∀ v' inner' l', Filled L v₀ v' t S u perms data l₀ frames inner' l' →
      Sat undo v' E Q) :
    Sat (do
      let ok ← mappages (PGSIZE * t) address PGSIZE (PGSIZE * n) (perms frames.length)
      if ok then next
      else do
        kfree L (PGSIZE * n)
        undo) v₁ E Q := by
  subst list spot
  have away : n ∉ {m | m ∈ S ∨ m ∈ inner} := mapped.table.apart n (by simp)
  have managed : Managed L n := mapped.table.managed n (by simp)
  have taken : n ∈ l₀ := mapped.ledger.mem_iff.mpr (by simp)
  have same : ∀ w, w / 512 ∈ {m | m ∈ S ∨ m ∈ inner} → v₁.mem w = v.mem w := by
    rintro w member
    refine keeps w ?_
    rintro rfl
    exact away member
  have table₁ : PageTable L v₁ t {m | m ∈ S ∨ m ∈ inner} l' :=
    ⟨free, mapped.table.tree.congr same,
      fun m member => mapped.table.apart m (List.mem_cons_of_mem n member), mapped.table.pos⟩
  have values := Radix.value_congr mapped.table.tree same
  have page : PGSIZE * (u + frames.length) / PGSIZE = u + frames.length := page_number _
  have range : ∀ u', InRange (PGSIZE * (u + frames.length)) PGSIZE u' ↔ u' = u + frames.length := by
    intro u'
    unfold InRange
    simp only [PGSIZE]
    omega
  obtain ⟨ok, v', used, l'', returned, list, table', others, failed, here, kept, -⟩ :=
    table₁.mappages (f := n) (show 0 < PGSIZE by decide)
      (show PGSIZE * (u + frames.length) + PGSIZE ≤ MAXVA by simp only [PGSIZE, MAXVA]; omega)
      (by have := managed.lt; omega) flags (fun u' inside => by
        obtain rfl := (range u').mp inside
        rw [values, mapped.others _ (by omega) (by omega), blank])
  subst list
  have pages : {m | m ∈ {m | m ∈ S ∨ m ∈ inner} ∨ m ∈ used} = {m | m ∈ S ∨ m ∈ inner ++ used} := by
    ext m
    simp [or_assoc]
  rw [pages] at table'
  have unused : n ∉ used := by
    intro member
    exact (List.nodup_cons.mp mapped.table.nodup).1 (by simp [member])
  have kept₀ : Keeps v₀ v' fun m => m ∉ S ∧ m ∉ l₀ := by
    have free' : ∀ m, m ∉ l₀ → m ∉ inner ∧ m ≠ n ∧ m ∉ used := by
      intro m free
      rw [mapped.ledger.mem_iff] at free
      simp only [List.mem_append, List.mem_cons, not_or] at free
      exact ⟨free.2.1, free.2.2.1, free.2.2.2.1⟩
    refine mapped.keeps.trans ((keeps.mono fun m far => (free' m far.2).2.1).trans
      (kept.mono fun m far => ⟨not_or.mpr ⟨far.1, (free' m far.2).1⟩, (free' m far.2).2.2⟩))
  have untouched : ∀ f, f ∈ frames ∨ f = n → ∀ j < 512,
      v'.mem (512 * f + j) = v₁.mem (512 * f + j) := by
    intro f member j low
    refine kept.at ?_ low
    rcases member with member | rfl
    · obtain ⟨-, outside, inner', free', -⟩ := mapped.frame start member
      exact ⟨not_or.mpr ⟨outside, inner'⟩, fun new => free' (by simp [new])⟩
    · exact ⟨away, unused⟩
  have held : ∀ k f, frames[k]? = some f → ∀ j < 512, v'.mem (512 * f + j) = data k j := by
    intro k f found j low
    have member := List.mem_of_getElem? found
    have other : f ≠ n := mapped.keeps_frame start (.inr (.inr (by simp))) member
    rw [untouched f (.inl member) j low, keeps.at other low, mapped.contents k f found j low]
  have entries : ∀ k f, frames[k]? = some f →
      Radix.value pteCoding v'.mem 2 t (u + k) = some (f * 1024 + (perms k ||| PTE_V)) := by
    intro k f found
    have low : k < frames.length := (List.getElem?_eq_some_iff.mp found).1
    rw [others _ (by omega) (by rw [range]; omega), values, mapped.values k f found]
  refine Sat.bind (Sat.ofRun (Q := fun r s => ok = r ∧ v' = s) returned ⟨rfl, rfl⟩) ?_
  rintro _ _ ⟨rfl, rfl⟩
  cases ok with
  | true =>
    rw [if_pos rfl]
    have last := here rfl _ ((range _).mpr rfl)
    rw [page, Nat.sub_self, Nat.add_zero] at last
    refine goOn v' (inner ++ used) l'' ⟨table', ?_, ?_, ?_, ?_, ?_, kept₀⟩
    · refine mapped.ledger.trans (List.perm_iff_count.mpr fun x => ?_)
      simp only [List.count_append, List.count_cons, List.count_nil]
      omega
    · intro k f found
      rcases append_singleton found with found | ⟨rfl, rfl⟩
      · exact entries k f found
      · exact last
    · intro k f found j low
      rcases append_singleton found with found | ⟨rfl, rfl⟩
      · exact held k f found j low
      · rw [untouched n (.inr rfl) j low, filled j low]
    · intro k low
      rw [List.length_append, List.length_singleton] at low
      rcases Nat.lt_succ_iff_lt_or_eq.mp low with low | rfl
      · exact mapped.blank k low
      · exact blank
    · intro u' small outside
      rw [List.length_append, List.length_singleton] at outside
      rw [others u' small (by rw [range]; omega), values, mapped.others u' small (by omega)]
  | false =>
    rw [if_neg (by simp)]
    have idle : n ∉ l'' := by
      intro member
      exact (List.nodup_cons.mp mapped.table.nodup).1 (by simp [member])
    have apart : n ∉ {m | m ∈ S ∨ m ∈ inner ++ used} := by
      rintro (old | new)
      · exact away (.inl old)
      · rcases List.mem_append.mp new with new | new
        · exact away (.inr new)
        · exact unused new
    refine Sat.bind (table'.kfree managed idle apart) ?_
    rintro _ v'' ⟨table'', same'', keeps''⟩
    refine back v'' (inner ++ used) (n :: l'') ⟨table'', ?_, ?_, ?_, mapped.blank, ?_, ?_⟩
    · refine mapped.ledger.trans (List.perm_iff_count.mpr fun x => ?_)
      simp only [List.count_append, List.count_cons]
      omega
    · intro k f found
      rw [Radix.value_congr table'.tree same'', entries k f found]
    · intro k f found j low
      have other : f ≠ n :=
        mapped.keeps_frame start (.inr (.inr (by simp))) (List.mem_of_getElem? found)
      rw [keeps''.at other low, held k f found j low]
    · intro u' small outside
      rw [Radix.value_congr table'.tree same'']
      by_cases next : u' = u + frames.length
      · obtain ⟨-, stop, at_, absent⟩ := failed rfl
        rw [next, absent _ ((range _).mpr rfl) (by rw [(range _).mp at_]), blank]
      · rw [others u' small (by rwa [range]), values, mapped.others u' small outside]
    · refine kept₀.trans (keeps''.mono ?_)
      rintro m far rfl
      exact far.2 taken

end Progress

section Growing

variable {oldsz newsz : ℕ}

/-- The permissions of a page that `uvmalloc` maps. -/
def USERPERM : ℕ := PTE_W ||| PTE_X ||| PTE_R ||| PTE_U

/-- `uvmdealloc` counts the pages between the two sizes. -/
theorem uvmdealloc_run (order : newsz ≤ oldsz) (high : pages oldsz ≤ 2 ^ 26) (pagetable : ℕ) :
    uvmdealloc L pagetable oldsz newsz = (do
      unmapLoop L pagetable true (pages oldsz - pages newsz) (PGSIZE * pages newsz)
      pure newsz) := by
  have fewer : pages newsz ≤ pages oldsz := Nat.div_le_div_right (by omega)
  unfold uvmdealloc
  by_cases same : oldsz ≤ newsz
  · obtain rfl : newsz = oldsz := by omega
    rw [if_pos same, Nat.sub_self]
    rfl
  rw [if_neg same, PGROUNDUP_eq high, PGROUNDUP_eq (by omega)]
  have count : (PGSIZE * pages oldsz - PGSIZE * pages newsz) / PGSIZE =
      pages oldsz - pages newsz := by
    rw [← Nat.mul_sub, page_number]
  rw [count, uvmunmap_eq (by omega)]
  by_cases some : PGSIZE * pages newsz < PGSIZE * pages oldsz
  · rw [onlyIf, if_pos some]
  · have none : pages oldsz - pages newsz = 0 := by
      simp only [PGSIZE] at some
      omega
    rw [onlyIf, if_neg some, none]
    rfl

/-- The loop of `uvmalloc`: it maps all its pages, or unmaps those it has mapped. -/
theorem Filled.allocLoop (start : PageTable L v₀ t S l₀)
    (mapped : Filled L v₀ v t S u (fun _ => USERPERM) (fun _ _ => 0) l₀ frames inner l)
    (high : u + frames.length + n ≤ 2 ^ 26)
    (blank : ∀ k < frames.length + n, Radix.value pteCoding v₀.mem 2 t (u + k) = none) :
    Sat (allocLoop L (PGSIZE * t) (PGSIZE * u) newsz n (PGSIZE * (u + frames.length))) v E
      fun r v' => ∃ frames' inner' l',
        Filled L v₀ v' t S u (fun _ => USERPERM) (fun _ _ => 0) l₀ frames' inner' l' ∧
          ((r = newsz ∧ frames'.length = frames.length + n) ∨ (r = 0 ∧ frames' = [])) := by
  induction n generalizing v frames inner l with
  | zero => exact Sat.pure ⟨frames, inner, l, mapped, .inl ⟨rfl, rfl⟩⟩
  | succ n ih =>
    have undo : ∀ v' inner' l',
        Filled L v₀ v' t S u (fun _ => USERPERM) (fun _ _ => 0) l₀ frames inner' l' →
        Sat (do
          let _ ← uvmdealloc L (PGSIZE * t) (PGSIZE * (u + frames.length)) (PGSIZE * u)
          pure 0) v' E fun r v' => ∃ frames' inner' l',
            Filled L v₀ v' t S u (fun _ => USERPERM) (fun _ _ => 0) l₀ frames' inner' l' ∧
              ((r = newsz ∧ frames'.length = frames.length + (n + 1)) ∨
                (r = 0 ∧ frames' = [])) := by
      intro v' inner' l' mapped'
      have order : PGSIZE * u ≤ PGSIZE * (u + frames.length) :=
        Nat.mul_le_mul_left _ (Nat.le_add_right _ _)
      rw [uvmdealloc_run order (by rw [pages_mul]; omega), pages_mul, pages_mul,
        Nat.add_sub_cancel_left]
      refine Sat.bind (Q := fun _ s => Filled L v₀ s t S u (fun _ => USERPERM) (fun _ _ => 0) l₀ []
        inner' (frames.reverse ++ l')) (Sat.bind (mapped'.release start (by omega) ?_) ?_) ?_
      · exact fun _ _ => by decide
      · exact fun _ s restored => Sat.pure restored
      · exact fun _ s restored => Sat.pure ⟨[], inner', _, restored, .inr ⟨rfl, rfl⟩⟩
    have following : PGSIZE * (u + frames.length) + PGSIZE = PGSIZE * (u + frames.length + 1) := by
      rw [Nat.mul_add PGSIZE _ 1, Nat.mul_one]
    unfold HaloOS.allocLoop
    refine Sat.bind mapped.table.toFreeList.kalloc ?_
    rintro r v₁ (⟨rfl, rfl, rfl⟩ | ⟨m, rest, rfl, rfl, nonzero, fresh, managed, keeps, free⟩)
    · rw [if_pos rfl]
      exact undo _ _ _ mapped
    rw [if_neg nonzero]
    refine Sat.bind (Sat.update (Q := fun _ s => s = v₁.memset (PGSIZE * m) 0) rfl) ?_
    rintro _ _ rfl
    have wiped := keeps_memset v₁ m 0
    have free' : FreeList L (v₁.memset (PGSIZE * m) 0) rest := by
      refine free.congr rfl (wiped.mono ?_)
      rintro k member rfl
      exact fresh member
    refine mapped.round start rfl (by omega) (by decide) (blank _ (by omega)) rfl
      (keeps.trans wiped) free' ?_ ?_ undo
    · intro j low
      rw [mem_memset v₁ m 0 low, Nat.zero_mul]
    · intro v' inner' l' mapped'
      have length : (frames ++ [m]).length = frames.length + 1 := by simp
      rw [following, Nat.add_assoc, ← length]
      refine (ih mapped' (by omega) fun k low => blank k (by omega)).mono ?_
      rintro r s ⟨frames', inner'', l'', done, result⟩
      refine ⟨frames', inner'', l'', done, result.imp_left fun grown => ⟨grown.1, ?_⟩⟩
      have count := grown.2
      omega

/-- Below `TRAPFRAME` exactly the pages below `PGROUNDUP(sz)` are mapped. -/
def MapsBelow (v : Vm) (t sz : ℕ) : Prop :=
  ∀ a < TRAPFRAME, (lookup v (PGSIZE * t) a).isSome ↔ a < PGROUNDUP sz

theorem pages_le_TRAPFRAMEPG {sz : ℕ} (bound : sz ≤ TRAPFRAME) : pages sz ≤ TRAPFRAMEPG := by
  simp only [pages, PGSIZE, TRAPFRAME, TRAMPOLINE, MAXVA, TRAPFRAMEPG] at *
  omega

theorem TRAPFRAMEPG_lt : TRAPFRAMEPG < 2 ^ 26 := by decide

theorem PageTable.mapsBelow_iff (table : PageTable L v t S l) {sz : ℕ} (bound : sz ≤ TRAPFRAME) :
    MapsBelow v t sz ↔
      ∀ u < TRAPFRAMEPG, (Radix.value pteCoding v.mem 2 t u).isSome ↔ u < pages sz := by
  have few := pages_le_TRAPFRAMEPG bound
  have top := TRAPFRAMEPG_lt
  have round := PGROUNDUP_eq (show pages sz ≤ 2 ^ 26 by omega)
  have last : TRAPFRAME = PGSIZE * TRAPFRAMEPG := rfl
  unfold MapsBelow
  rw [round, last]
  constructor
  · intro maps u low
    have here := maps (PGSIZE * u) (Nat.mul_lt_mul_of_pos_left low (by decide))
    rwa [table.lookup (pageVa_lt (by omega)), page_number,
      Nat.mul_lt_mul_left (show 0 < PGSIZE by decide)] at here
  · intro maps a low
    have page : a / PGSIZE < TRAPFRAMEPG := Nat.div_lt_of_lt_mul low
    have below : a < MAXVA := lt_trans low (pageVa_lt top)
    rw [table.lookup below, maps _ page, Nat.div_lt_iff_lt_mul (by decide), Nat.mul_comm]

/-- `uvmalloc` maps every page up to the new size to a zeroed frame of its own, or gives back
every frame and leaves all translations alone; then `uvmdealloc` frees what it had added. -/
theorem uvmalloc_all_or_nothing (table : PageTable L v t S l) (maps : MapsBelow v t oldsz)
    (order : oldsz ≤ newsz) (bound : newsz ≤ TRAPFRAME) (pos : 0 < newsz) :
    ∃ r v' frames inner l', uvmalloc L (PGSIZE * t) oldsz newsz v = .ok (r, v') ∧
      (r = newsz ∨ r = 0) ∧ PageTable L v' t {m | m ∈ S ∨ m ∈ inner} l' ∧
      l.Perm (frames ++ (inner ++ l')) ∧ Keeps v v' (fun m => m ∉ S ∧ m ∉ l) ∧
      (r ≠ 0 → frames.length = pages newsz - pages oldsz ∧ MapsBelow v' t newsz ∧
        SameOutside v v' t (fun u => pages oldsz ≤ u ∧ u < pages newsz) ∧
        (∀ k f, frames[k]? = some f →
          (∀ a, a / PGSIZE = pages oldsz + k → ∃ pte, lookup v' (PGSIZE * t) a = some pte ∧
            PTE2PA pte = PGSIZE * f ∧
            PTE_FLAGS pte = PTE_W ||| PTE_X ||| PTE_R ||| PTE_U ||| PTE_V) ∧
          ∀ w, w / 512 = f → v'.mem w = 0) ∧
        ∃ v'', uvmdealloc L (PGSIZE * t) newsz oldsz v' = .ok (oldsz, v'') ∧
          PageTable L v'' t {m | m ∈ S ∨ m ∈ inner} (frames.reverse ++ l') ∧
          Keeps v v'' (fun m => m ∉ S ∧ m ∉ l) ∧ SameOutside v v'' t fun _ => False) ∧
      (r = 0 → frames = [] ∧ MapsBelow v' t oldsz ∧ SameOutside v v' t fun _ => False) := by
  have few := pages_le_TRAPFRAMEPG bound
  have top := TRAPFRAMEPG_lt
  have fewer : pages oldsz ≤ pages newsz := Nat.div_le_div_right (by omega)
  have base := PGROUNDUP_eq (show pages oldsz ≤ 2 ^ 26 by omega)
  have count : (newsz - PGSIZE * pages oldsz + PGSIZE - 1) / PGSIZE =
      pages newsz - pages oldsz := by
    simp only [pages, PGSIZE]
    omega
  have held := (table.mapsBelow_iff (order.trans bound)).mp maps
  have blank : ∀ k < 0 + (pages newsz - pages oldsz),
      Radix.value pteCoding v.mem 2 t (pages oldsz + k) = none := by
    intro k low
    have absent := (held (pages oldsz + k) (by omega)).not
    rw [Option.not_isSome_iff_eq_none] at absent
    exact absent.mpr (by omega)
  obtain ⟨r, v', returned, frames, inner, l', mapped, result⟩ :=
    (Filled.allocLoop table (.refl table) (by simp; omega) blank :
      Sat (allocLoop L (PGSIZE * t) _ newsz _ _) v (fun _ => False) _).returns
  have call : uvmalloc L (PGSIZE * t) oldsz newsz v = .ok (r, v') := by
    unfold uvmalloc
    rw [if_neg (by omega), base, count]
    exact returned
  refine ⟨r, v', frames, inner, l', call, result.imp And.left And.left, mapped.table,
    mapped.ledger, mapped.keeps, ?_, ?_⟩
  · intro done
    obtain ⟨rfl, length⟩ | ⟨rfl, -⟩ := result
    rotate_left
    · exact absurd rfl done
    rw [List.length_nil, Nat.zero_add] at length
    have last : pages oldsz + frames.length = pages r := by omega
    refine ⟨length, (mapped.table.mapsBelow_iff bound).mpr fun u low => ?_, ?_, ?_, ?_⟩
    · by_cases inside : pages oldsz ≤ u ∧ u < pages r
      · have low : u - pages oldsz < frames.length := by omega
        have entry := mapped.values _ _ (List.getElem?_eq_getElem low)
        rw [Nat.add_sub_cancel' inside.1] at entry
        simp [entry, inside.2]
      · rw [mapped.others u (by omega) (by omega), held u low]
        omega
    · refine table.sameOutside mapped.table fun u small outside => ?_
      exact mapped.others u small (by omega)
    · intro k f found
      have low := (List.getElem?_eq_some_iff.mp found).1
      obtain ⟨managed, -⟩ := mapped.frame table (List.mem_of_getElem? found)
      refine ⟨fun a page => ⟨f * 1024 + (USERPERM ||| PTE_V), ?_,
        entry_page managed.lt (by decide), entry_flags f (by decide)⟩, ?_⟩
      · have below : a < MAXVA := by
          have high : pages oldsz + k < 2 ^ 26 := by omega
          rw [← page] at high
          simp only [PGSIZE, MAXVA] at high ⊢
          omega
        rw [mapped.table.lookup below, page, mapped.values k f found]
      · rintro w rfl
        have word := mapped.contents k _ found (w % 512) (Nat.mod_lt _ (by decide))
        rwa [Nat.div_add_mod] at word
    · obtain ⟨_, v'', undone, restored⟩ := (mapped.release (E := fun _ => False) table (by omega)
        (fun _ _ => by decide)).returns
      refine ⟨v'', ?_, restored.table, restored.keeps, ?_⟩
      · rw [uvmdealloc_run order (by omega), ← length, bind_run, undone]
        rfl
      · exact table.sameOutside restored.table fun u small _ =>
          restored.others u small (by simp; omega)
  · intro failed
    obtain ⟨rfl, -⟩ | ⟨-, rfl⟩ := result
    · omega
    have same : ∀ u < 2 ^ 27,
        Radix.value pteCoding v'.mem 2 t u = Radix.value pteCoding v.mem 2 t u :=
      fun u small => mapped.others u small (by simp; omega)
    refine ⟨rfl, ?_, table.sameOutside mapped.table fun u small _ => same u small⟩
    refine (mapped.table.mapsBelow_iff (order.trans bound)).mpr fun u low => ?_
    rw [same u (by omega)]
    exact held u low

/-- One page on a table that is empty: a frame and two table pages come from the free list. -/
theorem uvmalloc_all_or_nothing_blank :
    PageTable smallLayout (bootVm 3) 524290 {524290} (List.range' FIRSTPG 3) ∧
      MapsBelow (bootVm 3) 524290 0 ∧
      ∃ v', uvmalloc smallLayout (PGSIZE * 524290) 0 1 (bootVm 3) = .ok (1, v') ∧
        MapsBelow v' 524290 1 := by
  have table := bootVm_table (n := 524290) (show 3 ≤ 32756 by omega) (by decide) (by decide)
  have maps : MapsBelow (bootVm 3) 524290 0 := by
    intro a _
    rw [lookup_eq table.pos table.tree, (Radix.tree_empty 2 (bootVm_blank 3 (by decide))).2, ite_self]
    exact ⟨fun some => by simp at some, fun low => absurd low (Nat.not_lt_zero a)⟩
  obtain ⟨r, v', frames, inner, l', returned, -, -, -, -, grown, -⟩ :=
    uvmalloc_all_or_nothing table maps (Nat.zero_le 1) (by decide) Nat.one_pos
  have one : r = 1 := by
    have result : ((uvmalloc smallLayout (PGSIZE * 524290) 0 1 (bootVm 3)).toOption.map
      Prod.fst) = some 1 := by decide +kernel
    rw [returned] at result
    simpa [Except.toOption] using result
  subst one
  obtain ⟨-, maps', -⟩ := grown Nat.one_ne_zero
  exact ⟨table, maps, v', returned, maps'⟩

end Growing

end HaloOS
