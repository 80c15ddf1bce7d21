import HaloOS.Vm.Build

/-! What the paging hardware sees. A table that is what its owners say translates its
own pages and nothing else, and the pages it is made of can be read off memory. -/

namespace HaloOS

open Lib

variable {L : Layout} {own : ℕ → Owner} {v : Vm} {l : List ℕ} {t n u f : ℕ} {S : ℕ → Prop}

/-- The walk of the hardware for virtual page `u` from a table of the given level: the
first leaf entry and its level, if all entries on the way are valid. -/
def sv39 (mem : ℕ → ℕ) (u : ℕ) : ℕ → ℕ → Option (ℕ × ℕ)
  | 0, table =>
    let pte := mem (table / 8 + PX 0 (PGSIZE * u))
    if pte &&& PTE_V = 0 then none else some (0, pte)
  | level + 1, table =>
    let pte := mem (table / 8 + PX (level + 1) (PGSIZE * u))
    if pte &&& PTE_V = 0 then none
    else if pte &&& (PTE_R ||| PTE_W ||| PTE_X) ≠ 0 then some (level + 1, pte)
    else sv39 mem u level (PTE2PA pte)

/-- The pages a table is made of: its root and what valid entries of the two upper
levels point to. -/
def TablePage (mem : ℕ → ℕ) (table n : ℕ) : Prop :=
  n = table / PGSIZE ∨ ∃ i < 512, mem (table / 8 + i) &&& PTE_V ≠ 0 ∧
    (n = PTE2PA (mem (table / 8 + i)) / PGSIZE ∨
      ∃ j < 512, mem (PTE2PA (mem (table / 8 + i)) / 8 + j) &&& PTE_V ≠ 0 ∧
        n = PTE2PA (mem (PTE2PA (mem (table / 8 + i)) / 8 + j)) / PGSIZE)

theorem page_words (n : ℕ) : PGSIZE * n / 8 = 512 * n := by
  simp only [PGSIZE]
  omega

theorem page_number (n : ℕ) : PGSIZE * n / PGSIZE = n := by
  simp [PGSIZE]

theorem pointer_page_of (pool : Pool L v own l) (used : own n ≠ .kernel) :
    PTE2PA (n * 1024 + 1) = PGSIZE * n :=
  entry_page (pool.managed n used).lt (by decide)

theorem zero_invalid : 0 &&& PTE_V = 0 := by decide

/-- One level of the walk through an entry of a sound table. -/
theorem sv39_slot {P : ℕ → Prop} {level i : ℕ} (pool : Pool L v own l)
    (slot : Slot (v.mem (512 * n + i)) P) (place : PX (level + 1) (PGSIZE * u) = i)
    (used : ∀ m, P m → own m ≠ .kernel) :
    (sv39 v.mem u (level + 1) (PGSIZE * n) = none ∧ ∀ m, ¬ P m) ∨
      ∃ m, P m ∧ sv39 v.mem u (level + 1) (PGSIZE * n) = sv39 v.mem u level (PGSIZE * m) := by
  have plain : ∀ m, (m * 1024 + 1) &&& (PTE_R ||| PTE_W ||| PTE_X) = 0 := by
    intro m
    rw [entry_and m (by decide)]
    decide
  have step : sv39 v.mem u (level + 1) (PGSIZE * n) =
      if v.mem (512 * n + i) &&& PTE_V = 0 then none
      else if v.mem (512 * n + i) &&& (PTE_R ||| PTE_W ||| PTE_X) ≠ 0 then
        some (level + 1, v.mem (512 * n + i))
      else sv39 v.mem u level (PTE2PA (v.mem (512 * n + i))) := by
    rw [← place, ← page_words]
    rfl
  rw [step]
  rcases slot with ⟨zero, none⟩ | ⟨m, entry, only⟩
  · refine .inl ⟨?_, none⟩
    rw [zero, if_pos zero_invalid]
  · have here : P m := (only m).mpr rfl
    refine .inr ⟨m, here, ?_⟩
    rw [entry, if_neg (pointer_valid m), if_neg (by simpa using plain m),
      pointer_page_of pool (used m here)]

/-- The hardware reaches the leaf entry of every page. -/
theorem Tree.sv39 (tree : Tree v.mem own t) (pool : Pool L v own l) (small : u < 2 ^ 27) :
    sv39 v.mem u 2 (PGSIZE * t) =
      if leaf v.mem t u &&& PTE_V = 0 then none else some (0, leaf v.mem t u) := by
  have top : PX 2 (PGSIZE * u) = u / 512 / 512 := by
    simp only [PX, PGSIZE]
    omega
  rcases sv39_slot pool (tree.upper _ (by omega)) top (fun m here => by simp [here]) with
    ⟨stuck, none⟩ | ⟨n, inner, next⟩
  · have missing : leaf v.mem t u = 0 := by
      refine tree.leaf_none small fun m bottom => ?_
      obtain ⟨n, inner⟩ := tree.parent _ _ m bottom
      exact none n inner
    rw [stuck, missing, if_pos zero_invalid]
  rw [next]
  rcases sv39_slot pool (tree.lower _ n inner _ (by omega)) (PX_one u)
    (fun m here => by simp [here]) with ⟨stuck, none⟩ | ⟨m, bottom, next'⟩
  · rw [stuck, tree.leaf_none small none, if_pos zero_invalid]
  · rw [next', tree.leaf_l0 bottom]
    unfold HaloOS.sv39
    rw [page_words, PX_zero]

/-- The pages of a table are those whose owner says so. -/
theorem Tree.tablePage_iff (tree : Tree v.mem own t) (pool : Pool L v own l) :
    TablePage v.mem (PGSIZE * t) n ↔
      n = t ∨ (∃ i, own n = .l1 t i) ∨ ∃ i j, own n = .l0 t i j := by
  unfold TablePage
  rw [page_number, page_words]
  constructor
  · rintro (rfl | ⟨i, small, valid, rest⟩)
    · exact .inl rfl
    · rcases tree.upper i small with ⟨zero, -⟩ | ⟨m, entry, only⟩
      · rw [zero] at valid
        exact absurd zero_invalid valid
      have inner : own m = .l1 t i := (only m).mpr rfl
      rw [entry, pointer_page_of pool (by simp [inner]), page_number, page_words] at rest
      rcases rest with rfl | ⟨j, low, valid', rfl⟩
      · exact .inr (.inl ⟨i, inner⟩)
      · rcases tree.lower i m inner j low with ⟨zero, -⟩ | ⟨b, entry', only'⟩
        · rw [zero] at valid'
          exact absurd zero_invalid valid'
        have bottom : own b = .l0 t i j := (only' b).mpr rfl
        rw [entry', pointer_page_of pool (by simp [bottom]), page_number]
        exact .inr (.inr ⟨i, j, bottom⟩)
  · rintro (rfl | ⟨i, inner⟩ | ⟨i, j, bottom⟩)
    · exact .inl rfl
    · refine .inr ⟨i, tree.l1_lt i n inner, ?_⟩
      rw [tree.l1_page inner, pointer_page_of pool (by simp [inner]), page_number]
      exact ⟨pointer_valid n, .inl rfl⟩
    · obtain ⟨m, inner⟩ := tree.parent i j n bottom
      refine .inr ⟨i, tree.l1_lt i m inner, ?_⟩
      rw [tree.l1_page inner, pointer_page_of pool (by simp [inner]), page_words]
      refine ⟨pointer_valid m, .inr ⟨j, tree.l0_lt i j n bottom, ?_⟩⟩
      rw [tree.l0_page inner bottom, pointer_page_of pool (by simp [bottom]), page_number]
      exact ⟨pointer_valid n, rfl⟩

/-- User pages translate to frames that the table owns. -/
theorem Space.sv39_user (space : Space L v own l t S (topLeaves L f)) (inside : S u) :
    ∃ g flags, (flags = 31 ∨ flags = 15) ∧ own g = .user t u ∧
      HaloOS.sv39 v.mem u 2 (PGSIZE * t) = some (0, g * 1024 + flags) := by
  obtain ⟨g, owner⟩ := space.maps.frame u inside
  have bound := space.maps.bound u inside
  simp only [TRAPFRAMEPG] at bound
  obtain ⟨-, entry⟩ := space.maps.user g u owner
  rcases entry with entry | entry
  · refine ⟨g, 31, .inl rfl, owner, ?_⟩
    rw [space.tree.sv39 space.pool (by omega), entry, if_neg]
    rw [entry_and g (by decide)]
    decide
  · refine ⟨g, 15, .inr rfl, owner, ?_⟩
    rw [space.tree.sv39 space.pool (by omega), entry, if_neg]
    rw [entry_and g (by decide)]
    decide

/-- The other pages translate as the leaves above user memory say. -/
theorem Space.sv39_other (space : Space L v own l t S (topLeaves L f)) (small : u < 2 ^ 27)
    (outside : ¬ S u) :
    HaloOS.sv39 v.mem u 2 (PGSIZE * t) =
      if topLeaves L f u = 0 then none else some (0, topLeaves L f u) := by
  rw [space.tree.sv39 space.pool small, space.maps.other u small outside]
  have valid : topLeaves L f u &&& PTE_V = 0 ↔ topLeaves L f u = 0 := by
    unfold topLeaves
    by_cases one : u = TRAPFRAMEPG
    · rw [one, Function.update_self, entry_and f (by decide)]
      exact iff_of_false (by decide) (by omega)
    · rw [Function.update_of_ne one]
      by_cases two : u = TRAMPOLINEPG
      · rw [two, Function.update_self, entry_and _ (by decide)]
        exact iff_of_false (by decide) (by omega)
      · rw [Function.update_of_ne two]
        decide
  simp only [valid]

end HaloOS
