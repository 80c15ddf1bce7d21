import HaloOS.Vm.Teardown

/-! Building an address space: `uvmcreate`, `proc_pagetable` and `uvminit`, and the
accesses to user memory that leave its shape alone. -/

namespace HaloOS

open Lib

variable {L : Layout} {own own' : ℕ → Owner} {v v' : Vm} {l l' : List ℕ} {t n m i j k u a f p : ℕ}
  {S : ℕ → Prop} {top : ℕ → ℕ} {E : Stop → Prop}

/-- The panics that mean a page table is not what it should be. -/
def tablePanics : List String :=
  ["uvmunmap: not aligned", "uvmunmap: walk", "uvmunmap: not mapped", "uvmunmap: not a leaf",
    "uvmcopy: pte should exist", "uvmcopy: page not present", "mappages: remap", "freewalk: leaf"]

/-- A reason to stop that is none of these panics. -/
def Harmless (e : Stop) : Prop := ∀ message ∈ tablePanics, e ≠ .panic message

instance (e : Stop) : Decidable (Harmless e) := by
  unfold Harmless
  infer_instance

/-- Nor is it a stray access. -/
def Gentle (e : Stop) : Prop := Harmless e ∧ e ≠ .fault

instance (e : Stop) : Decidable (Gentle e) := by
  unfold Gentle
  infer_instance

/-- No page hangs under the root `t`. -/
def Bare (own : ℕ → Owner) (t : ℕ) : Prop := ∀ n, ¬ (own n).under t ∧ own n ≠ .held t

/-- Making page `t` the root of a table of process `p`. -/
theorem uvmcreate_spec (pool : Pool L v own l) (bare : ∀ t, own t = .free → Bare own t) (p : ℕ) :
    Sat uvmcreate v Gentle fun r s =>
      ∃ t rest own', r = PGSIZE * t ∧ l = t :: rest ∧ own t = .free ∧ own' t = .root p ∧
        Space L s own' rest t (fun _ => False) (fun _ => 0) ∧ Settled own' t ∧
        Touches t own v own' s ∧ (∀ a, ¬ HasL1 own' t a) ∧ ∀ a b, ¬ HasL0 own' t a b := by
  unfold uvmcreate
  refine Sat.bind (kalloc_spec pool) ?_
  rintro r s (⟨rfl, -, -⟩ | ⟨t, rest, rfl, rfl, free, managed, keeps, pool'⟩)
  · exact Sat.bind (Q := fun _ _ => False) (Sat.stopIf (fun _ => by decide) fun bad => bad rfl)
      fun _ _ bad => bad.elim
  · have nonzero : PGSIZE * t ≠ 0 := by
      have above := managed.pos
      simp only [PGSIZE]
      omega
    refine Sat.bind (Sat.stopIf (Q := fun _ s' => s = s') (fun zero => absurd zero nonzero)
      fun _ => rfl) ?_
    rintro _ _ rfl
    refine Sat.bind (Sat.update (Q := fun _ s' => s.memset (PGSIZE * t) 0 = s') rfl) ?_
    rintro _ _ rfl
    have wiped := keeps_memset s t 0
    have clean : ∀ n, ¬ (Function.update own t (.root p) n).under t ∧
        Function.update own t (.root p) n ≠ .held t := by
      intro n
      by_cases here : n = t
      · subst here
        simp [Owner.under]
      · rw [Function.update_of_ne here]
        exact bare t free n
    have noL1 : ∀ n i, Function.update own t (.root p) n ≠ .l1 t i :=
      fun n i here => (clean n).1 (by rw [here]; rfl)
    have noL0 : ∀ n i j, Function.update own t (.root p) n ≠ .l0 t i j :=
      fun n i j here => (clean n).1 (by rw [here]; rfl)
    have zero : ∀ i < 512, (s.memset (PGSIZE * t) 0).mem (512 * t + i) = 0 := by
      intro i small
      rw [mem_memset s t 0 small, Nat.zero_mul]
    have tree : Tree (s.memset (PGSIZE * t) 0).mem (Function.update own t (.root p)) t := by
      refine ⟨⟨p, Function.update_self ..⟩, ?_, ?_, ?_, ?_, ?_⟩
      · exact fun i small => .inl ⟨zero i small, fun n => noL1 n i⟩
      · exact fun i n here => absurd here (noL1 n i)
      · exact fun i j m here => absurd here (noL0 m i j)
      · exact fun i n here => absurd here (noL1 n i)
      · exact fun i j m here => absurd here (noL0 m i j)
    refine Sat.pure ⟨t, rest, _, rfl, rfl, free, Function.update_self .., ⟨?_, tree, ?_⟩,
      fun n => (clean n).2, ?_, fun a held => noL1 _ a held.choose_spec,
      fun a b held => noL0 _ a b held.choose_spec⟩
    · refine (pool' (.root p) (by simp)).congr rfl (wiped.mono ?_)
      rintro n isFree rfl
      simp at isFree
    · constructor
      · exact fun _ bad => bad.elim
      · exact fun _ bad => bad.elim
      · exact fun g a here => absurd (by rw [here]; rfl) (clean g).1
      · exact fun a small _ => tree.leaf_none small fun m => noL0 m _ _
    · exact .single (keeps.trans wiped) (.inl rfl) (.inl rfl)

/-- `mappages` of one of the pages above user memory. -/
theorem Space.mapTop (space : Space L v own l t S top) (settled : Settled own t)
    (small : u < 2 ^ 26) (outside : ¬ S u) (vacant : top u = 0) (f : ℕ) {perm : ℕ}
    (low : perm < 1024) :
    Sat (mappages (PGSIZE * t) (PGSIZE * u) PGSIZE (PGSIZE * f) perm) v E fun r s =>
      r = false ∨
      ∃ own' l', r = true ∧ Within t own v own' s ∧ own' t = own t ∧ Settled own' t ∧
        l.length = l'.length + missing own t u ∧ Reaches t own own' u ∧
        Space L s own' l' t S (Function.update top u (f * 1024 + (perm ||| 1))) := by
  obtain ⟨p, root⟩ := space.tree.root
  have empty : leaf v.mem t u = 0 := by rw [space.maps.other u (by omega) outside, vacant]
  refine (mappages_spec space.pool space.tree small empty f low).mono ?_
  rintro r s ⟨own', l', pool, tree, within, adds, -, ⟨rfl, -, -⟩ | ⟨rfl, length, reaches, leaves⟩⟩
  · exact .inl rfl
  · refine .inr ⟨own', l', rfl, within, adds.keep (by simp [root]), ?_, length, reaches, pool, tree, ?_⟩
    · intro n held
      exact settled n ((adds.iff (by simp) (by simp) (by simp)).mp held)
    · constructor
      · exact space.maps.bound
      · intro a inside
        obtain ⟨g, owner⟩ := space.maps.frame a inside
        exact ⟨g, adds.user_iff.mpr owner⟩
      · intro g a owner
        obtain ⟨inside, entry⟩ := space.maps.user g a (adds.user_iff.mp owner)
        have away : a ≠ u := by
          rintro rfl
          exact outside inside
        have le := space.maps.bound a inside
        simp only [TRAPFRAMEPG] at le
        rw [leaves a (by omega), if_neg away]
        exact ⟨inside, entry⟩
      · intro a bound away
        rw [leaves a bound]
        by_cases here : a = u
        · subst here
          simp
        · rw [if_neg here, Function.update_of_ne here]
          exact space.maps.other a bound away

theorem missing_of_none (upper : ∀ a, ¬ HasL1 own t a) (lower : ∀ a b, ¬ HasL0 own t a b) (u : ℕ) :
    missing own t u = 2 := by
  simp [missing, upper, lower]

theorem missing_of_has (upper : HasL1 own t (u / 512 / 512))
    (lower : HasL0 own t (u / 512 / 512) (u / 512 % 512)) : missing own t u = 0 := by
  simp [missing, upper, lower]

/-- `proc_pagetable` makes a table with no user pages out of three free pages. -/
theorem procPagetable_spec (pool : Pool L v own l) (bare : ∀ t, own t = .free → Bare own t)
    (p f : ℕ) :
    Sat (procPagetable L (PGSIZE * f)) v Gentle fun r s =>
      ∃ t own' l', r = PGSIZE * t ∧ own t = .free ∧ own' t = .root p ∧
        Space L s own' l' t (fun _ => False) (topLeaves L f) ∧ Settled own' t ∧
        Touches t own v own' s ∧ Shape own' t 0 ∧ l.length = l'.length + 3 := by
  unfold procPagetable
  refine Sat.bind (uvmcreate_spec pool bare p) ?_
  rintro r v₁ ⟨t, rest, own₁, rfl, rfl, free, root₁, space₁, settled₁, within₁, noL1, noL0⟩
  have positive : PGSIZE * t ≠ 0 := by
    have above := (space₁.pool.managed t (by simp [root₁])).pos
    simp only [PGSIZE]
    omega
  refine Sat.bind (Sat.stopIf (Q := fun _ s => v₁ = s) (fun zero => absurd zero positive)
    fun _ => rfl) ?_
  rintro _ _ rfl
  have aligned : L.trampoline = PGSIZE * (L.trampoline / PGSIZE) := by
    have whole := Nat.div_add_mod L.trampoline PGSIZE
    rw [L.trampoline_aligned] at whole
    exact whole.symm
  rw [show TRAMPOLINE = PGSIZE * TRAMPOLINEPG by rfl, show TRAPFRAME = PGSIZE * TRAPFRAMEPG by rfl,
    aligned]
  refine Sat.bind (space₁.mapTop settled₁ (by decide) id rfl _ (by decide)) ?_
  rintro r v₂ (rfl | ⟨own₂, l₂, rfl, within₂, root₂, settled₂, length₂, reaches₂, space₂⟩)
  · exact Sat.bind (Q := fun _ _ => False) (Sat.stopIf (fun _ => by decide) fun bad => bad rfl)
      fun _ _ bad => bad.elim
  refine Sat.bind (Sat.stopIf (Q := fun _ s => v₂ = s) (fun bad => by simp at bad) fun _ => rfl) ?_
  rintro _ _ rfl
  have apart : TRAPFRAMEPG ≠ TRAMPOLINEPG := by decide
  refine Sat.bind (space₂.mapTop settled₂ (by decide) id (by rw [Function.update_of_ne apart]) f
    (by decide)) ?_
  rintro r v₃ (rfl | ⟨own₃, l₃, rfl, within₃, root₃, settled₃, length₃, reaches₃, space₃⟩)
  · exact Sat.bind (Q := fun _ _ => False) (Sat.stopIf (fun _ => by decide) fun bad => bad rfl)
      fun _ _ bad => bad.elim
  refine Sat.bind (Sat.stopIf (Q := fun _ s => v₃ = s) (fun bad => by simp at bad) fun _ => rfl) ?_
  rintro _ _ rfl
  have high : TRAMPOLINEPG / 512 / 512 = TRAPFRAMEPG / 512 / 512 := by decide
  have mid : TRAMPOLINEPG / 512 % 512 = TRAPFRAMEPG / 512 % 512 := by decide
  have away : 0 ≠ TRAPFRAMEPG / 512 / 512 := by decide
  refine Sat.pure ⟨t, own₃, l₃, rfl, free, root₃.trans (root₂.trans root₁), space₃, settled₃,
    (within₁.trans within₂.touches).trans within₃.touches, ⟨?_, fun b => ?_⟩, ?_⟩
  · rw [reaches₃.1, reaches₂.1, high]
    simp [noL1, away]
  · rw [reaches₃.2, reaches₂.2, high]
    simp [noL0, away]
  · rw [missing_of_none noL1 noL0] at length₂
    rw [missing_of_has ((reaches₂.1 _).mpr (.inr high.symm))
      ((reaches₂.2 _ _).mpr (.inr ⟨high.symm, mid.symm⟩))] at length₃
    rw [List.length_cons]
    omega

/-- `uvminit` puts the first program into page 0, provided it finds three free pages. -/
theorem Space.uvminit (space : Space L v own l t (fun _ => False) top) (settled : Settled own t)
    (clear : TopOnly top) (shape : Shape own t 0) (enough : l = [] ∨ 3 ≤ l.length)
    (src : List Byte) :
    Sat (uvminit (PGSIZE * t) src) v Harmless fun _ s =>
      ∃ own' l', Space L s own' l' t (· < 1) top ∧ Settled own' t ∧ Within t own v own' s := by
  unfold HaloOS.uvminit
  refine Sat.bind (Sat.stopIf (Q := fun _ s => v = s ∧ src.length ≤ PGSIZE) (fun _ => by decide)
    fun fits => ⟨rfl, by omega⟩) ?_
  rintro _ _ ⟨rfl, fits⟩
  refine Sat.bind (space.kalloc settled) ?_
  rintro r v₁ (⟨rfl, -, -⟩ | ⟨f, rest, own₁, rfl, pos, rfl, space₁, carries, within₁, -, upper, lower⟩)
  · exact Sat.bind (Q := fun _ _ => False) (Sat.stopIf (fun _ => by decide) fun bad => bad rfl)
      fun _ _ bad => bad.elim
  refine Sat.bind (Sat.stopIf (Q := fun _ s => v₁ = s)
    (fun zero => by simp only [PGSIZE] at zero; omega) fun _ => rfl) ?_
  rintro _ _ rfl
  refine Sat.bind (Sat.update (Q := fun _ s => v₁.memset (PGSIZE * f) 0 = s) rfl) ?_
  rintro _ _ rfl
  obtain ⟨space₂, within₂⟩ := space₁.scribble (.inl ((carries f).mpr rfl)) (keeps_memset v₁ f 0) rfl
  refine Sat.bind (space₂.mapUser (u := 0) carries (by decide) id (clear 0 (by decide))
    (.inl (by decide))) ?_
  rintro r v₃ ⟨own₃, l₃, within₃, ⟨rfl, short, -⟩ | ⟨rfl, -, -, owner, space₃, settled₃, -⟩⟩
  · rw [(shape.congr upper lower).missing (by omega)] at short
    simp only [List.length_cons, ↓reduceIte, Nat.zero_mod] at short enough
    rcases enough with bad | enough
    · simp at bad
    · omega
  have one : Space L v₃ own₃ l₃ t (· < 1) top :=
    ⟨space₃.pool, space₃.tree, space₃.maps.set_congr fun a =>
      ⟨fun member => member.elim False.elim fun zero => by omega, fun below => .inr (by omega)⟩⟩
  have written : Keeps v₃ (v₃.writeBytes (PGSIZE * f + 0) src) (· ≠ f) :=
    keeps_writeBytes v₃ (by omega)
  obtain ⟨space₄, within₄⟩ := one.scribble (.inr ⟨0, owner⟩) written rfl
  refine Sat.update ⟨own₃, l₃, space₄, settled₃, ?_⟩
  exact ((within₁.trans within₂).trans within₃).trans within₄

/-- The leaves above user memory are closed to user code. -/
theorem topLeaves_closed (L : Layout) (f u : ℕ) : topLeaves L f u &&& PTE_U = 0 := by
  unfold topLeaves
  by_cases one : u = TRAPFRAMEPG
  · rw [one, Function.update_self, entry_and f (by decide)]
    decide
  · rw [Function.update_of_ne one]
    by_cases two : u = TRAMPOLINEPG
    · rw [two, Function.update_self, entry_and _ (by decide)]
      decide
    · rw [Function.update_of_ne two]
      decide

/-- `walkaddr` leads to a frame of the table, or nowhere. -/
theorem Space.walkaddr (space : Space L v own l t S (topLeaves L f)) (u : ℕ) :
    Sat (walkaddr (PGSIZE * t) (PGSIZE * u)) v Gentle fun pa s =>
      s = v ∧ (pa = 0 ∨ ∃ g, pa = PGSIZE * g ∧ own g = .user t u) := by
  unfold HaloOS.walkaddr
  refine Sat.ite (fun _ => Sat.pure ⟨rfl, .inl rfl⟩) fun low => ?_
  have small : u < 2 ^ 26 := by
    simp only [PGSIZE, MAXVA] at low
    omega
  refine Sat.bind (walk_find space.pool space.tree small) ?_
  rintro r s ⟨rfl, found⟩
  refine Sat.bind (Sat.stopIf (Q := fun _ s' => s = s' ∧ r ≠ 0) (fun _ => by decide)
    fun nonzero => ⟨rfl, nonzero⟩) ?_
  rintro _ _ ⟨rfl, nonzero⟩
  obtain ⟨zero, -⟩ | ⟨m, bottom, rfl⟩ := found
  · exact absurd zero nonzero
  refine Sat.bind (Sat.gets (Q := fun e s' => e = leaf s.mem t u ∧ s = s')
    ⟨by rw [load_entry, ← space.tree.leaf_l0 bottom], rfl⟩) ?_
  rintro _ _ ⟨rfl, rfl⟩
  refine Sat.bind (Sat.stopIf (Q := fun _ s' => s = s') (fun _ => by decide) fun _ => rfl) ?_
  rintro _ _ rfl
  refine Sat.bind (Sat.stopIf (Q := fun _ s' => s = s' ∧ leaf s.mem t u &&& PTE_U ≠ 0)
    (fun _ => by decide) fun open_ => ⟨rfl, open_⟩) ?_
  rintro _ _ ⟨rfl, open_⟩
  refine Sat.bind (Sat.stopIf (Q := fun _ s' => s = s') (fun _ => by decide) fun _ => rfl) ?_
  rintro _ _ rfl
  refine Sat.pure ⟨rfl, .inr ?_⟩
  by_cases inside : S u
  · obtain ⟨g, owner⟩ := space.maps.frame u inside
    obtain ⟨-, entry⟩ := space.maps.user g u owner
    refine ⟨g, ?_, owner⟩
    have managed := (space.pool.managed g (by simp [owner])).lt
    rcases entry with entry | entry <;> rw [entry, entry_page managed (by omega)]
  · rw [space.maps.other u (by omega) inside, topLeaves_closed] at open_
    exact absurd rfl open_

/-- `copyoutpg` writes to frames of the table only. -/
theorem Space.copyoutLoop {fuel dstva : ℕ} {src : List Byte}
    (space : Space L v own l t S (topLeaves L f)) :
    Sat (copyoutLoop (PGSIZE * t) fuel dstva src) v Gentle fun _ s =>
      Space L s own l t S (topLeaves L f) ∧ Within t own v own s := by
  induction fuel generalizing v dstva src with
  | zero => exact Sat.pure ⟨space, .refl⟩
  | succ fuel ih =>
    unfold HaloOS.copyoutLoop
    refine Sat.ite (fun _ => Sat.pure ⟨space, .refl⟩) fun _ => ?_
    rw [PGROUNDDOWN, Nat.mul_comm]
    refine Sat.bind (space.walkaddr (dstva / PGSIZE)) ?_
    rintro pa s ⟨rfl, rfl | ⟨g, rfl, owner⟩⟩
    · rw [if_pos rfl]
      exact Sat.pure ⟨space, .refl⟩
    · have above := (space.pool.managed g (by simp [owner])).pos
      rw [if_neg (by simp only [PGSIZE]; omega)]
      refine Sat.bind (Sat.update (Q := fun _ s' => s.writeBytes _ _ = s') rfl) ?_
      rintro _ _ rfl
      have inside : dstva - PGSIZE * (dstva / PGSIZE) + (src.take (min (PGSIZE -
          (dstva - PGSIZE * (dstva / PGSIZE))) src.length)).length ≤ PGSIZE := by
        simp only [List.length_take, PGSIZE]
        omega
      obtain ⟨space', within⟩ := space.scribble (.inr ⟨_, owner⟩) (keeps_writeBytes s inside) rfl
      refine (ih space').mono ?_
      rintro _ s' ⟨space'', within'⟩
      exact ⟨space'', within.trans within'⟩

theorem Space.copyoutpg {dstva : ℕ} {src : List Byte}
    (space : Space L v own l t S (topLeaves L f)) :
    Sat (copyoutpg (PGSIZE * t) dstva src) v Gentle fun _ s =>
      Space L s own l t S (topLeaves L f) ∧ Within t own v own s :=
  space.copyoutLoop

/-- `uvmclear` of a user page takes its user bit away. -/
theorem Space.uvmclear (space : Space L v own l t S top) (inside : S u) :
    Sat (uvmclear (PGSIZE * t) (PGSIZE * u)) v E fun _ s =>
      Space L s own l t S top ∧ Within t own v own s ∧ ∀ h a, own h = .user t a →
        leaf s.mem t a = (if a = u then h * 1024 + 15 else leaf v.mem t a) ∧
          ∀ k < 512, s.mem (512 * h + k) = v.mem (512 * h + k) := by
  obtain ⟨g, owner⟩ := space.maps.frame u inside
  obtain ⟨-, entry⟩ := space.maps.user g u owner
  have le := space.maps.bound u inside
  have small : u < 2 ^ 26 := by
    simp only [TRAPFRAMEPG] at le
    omega
  unfold HaloOS.uvmclear
  refine Sat.bind (walk_find space.pool space.tree small) ?_
  rintro r s ⟨rfl, ⟨-, none⟩ | ⟨m, bottom, rfl⟩⟩
  · omega
  have above := (space.pool.managed m (by simp [bottom])).pos
  refine Sat.bind (Sat.stopIf (Q := fun _ s' => s = s')
    (fun zero => by simp only [PGSIZE] at zero; omega) fun _ => rfl) ?_
  rintro _ _ rfl
  refine Sat.update ?_
  have index : u % 512 < 512 := Nat.mod_lt _ (by omega)
  rw [load_entry, ← space.tree.leaf_l0 bottom]
  have cleared : leaf s.mem t u - (leaf s.mem t u &&& PTE_U) = g * 1024 + 15 := by
    rcases entry with entry | entry
    · rw [entry, entry_and g (by decide), show 31 &&& PTE_U = 16 by decide]
      omega
    · rw [entry, entry_and g (by decide), show 15 &&& PTE_U = 0 by decide]
      omega
  rw [cleared]
  have kept := keeps_store (n := m) s index (g * 1024 + 15)
  have tree' : Tree _ own t := space.tree.setLeaf bottom kept
  have leaves : ∀ a < 2 ^ 27, leaf (s.store (PGSIZE * m + 8 * (u % 512)) (g * 1024 + 15)).mem t a =
      if a = u then g * 1024 + 15 else leaf s.mem t a :=
    fun a bound => space.tree.leaf_setLeaf tree' bottom (mem_store ..)
      (fun w other => mem_store_of_ne _ other _) bound
  refine ⟨⟨space.pool.store (by simp [bottom]) index _, tree', space.maps.bound, space.maps.frame,
    ?_, ?_⟩, .write kept (.inr (by rw [bottom])), ?_⟩
  · intro h a here
    obtain ⟨member, old⟩ := space.maps.user h a here
    have bound := space.maps.bound a member
    simp only [TRAPFRAMEPG] at bound
    rw [leaves a (by omega)]
    by_cases at_ : a = u
    · subst at_
      have same : h = g := by omega
      rw [if_pos rfl, same]
      exact ⟨member, .inr rfl⟩
    · rw [if_neg at_]
      exact ⟨member, old⟩
  · intro a bound outside
    have away : a ≠ u := by
      rintro rfl
      exact outside inside
    rw [leaves a bound, if_neg away]
    exact space.maps.other a bound outside
  · intro h a here
    refine ⟨?_, fun k inside' => kept.at ?_ inside'⟩
    · rw [leaves a (space.maps.small here)]
      by_cases at_ : a = u
      · subst at_
        rw [if_pos rfl, if_pos rfl, space.maps.frame_unique here owner]
      · rw [if_neg at_, if_neg at_]
    · rintro rfl
      simp [bottom] at here

end HaloOS
