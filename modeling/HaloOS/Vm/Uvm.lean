import HaloOS.Vm.Space
import Mathlib.Order.Interval.Finset.Nat

/-! Growing and copying user memory: `uvmalloc`, `uvmdealloc` and `uvmcopy`. None of them
panics on a table that is what its address space says it is. -/

namespace HaloOS

open Lib

variable {L : Layout} {mem mem' : ℕ → ℕ} {own own' own'' : ℕ → Owner} {v v' v'' : Vm}
  {l l' : List ℕ} {t n m i j k u a f : ℕ} {S S' : ℕ → Prop} {top : ℕ → ℕ} {E : Stop → Prop}

/-- The pages that `sz` bytes from address 0 take up. -/
def pages (sz : ℕ) : ℕ := (sz + PGSIZE - 1) / PGSIZE

theorem PGROUNDUP_eq {sz : ℕ} (small : pages sz ≤ 2 ^ 26) : PGROUNDUP sz = PGSIZE * pages sz := by
  simp only [PGROUNDUP, pages, PGSIZE, WORD] at *
  omega

theorem pages_mul (n : ℕ) : pages (PGSIZE * n) = n := by
  simp only [pages, PGSIZE]
  omega

theorem uvmunmap_eq (small : u + n ≤ 2 ^ 26) (pagetable : ℕ) (doFree : Bool) :
    uvmunmap L pagetable (PGSIZE * u) n doFree = unmapLoop L pagetable doFree n (PGSIZE * u) := by
  have aligned : ¬ (PGSIZE * u % PGSIZE ≠ 0) := by simp
  have count : ((PGSIZE * u + n * PGSIZE) % WORD - PGSIZE * u) / PGSIZE = n := by
    simp only [PGSIZE, WORD]
    omega
  unfold uvmunmap
  funext v
  rw [count, bind_run, stopIf_run, if_neg aligned]

/-- Leaves above user memory are the only ones that `top` knows. -/
def TopOnly (top : ℕ → ℕ) : Prop := ∀ a < TRAPFRAMEPG, top a = 0

theorem Space.uvmdealloc (space : Space L v own l t S top) (settled : Settled own t)
    (clear : TopOnly top) {lo hi : ℕ} (mapped : ∀ a, lo ≤ a → a < hi → S a) (ordered : lo ≤ hi)
    (small : hi ≤ TRAPFRAMEPG) :
    Sat (uvmdealloc L (PGSIZE * t) (PGSIZE * hi) (PGSIZE * lo)) v E fun _ s =>
      ∃ own' l', Space L s own' l' t (fun a => S a ∧ ¬ (lo ≤ a ∧ a < hi)) top ∧
        Settled own' t ∧ Within t own v own' s := by
  have bound : hi ≤ 2 ^ 26 := by
    simp only [TRAPFRAMEPG] at small
    omega
  unfold HaloOS.uvmdealloc
  by_cases same : hi = lo
  · subst same
    rw [if_pos (le_refl _)]
    refine Sat.pure ⟨own, l, ⟨space.pool, space.tree, space.maps.set_congr ?_⟩, settled, .refl⟩
    intro a
    constructor
    · exact fun member => ⟨member, by omega⟩
    · exact And.left
  · have less : PGSIZE * lo < PGSIZE * hi := by
      simp only [PGSIZE]
      omega
    have count : (PGSIZE * hi - PGSIZE * lo) / PGSIZE = hi - lo := by
      simp only [PGSIZE]
      omega
    rw [if_neg (by omega), PGROUNDUP_eq (by rw [pages_mul]; omega),
      PGROUNDUP_eq (by rw [pages_mul]; omega), pages_mul, pages_mul, count,
      uvmunmap_eq (by omega)]
    refine Sat.bind (Sat.onlyIf (fun _ => space.unmapLoop settled
      (fun a low high => mapped a low (by omega))
      (fun a low high => clear a (by omega))) fun off => absurd less off) ?_
    rintro _ s ⟨own', l', space', settled', within⟩
    refine Sat.pure ⟨own', l', ⟨space'.pool, space'.tree, space'.maps.set_congr ?_⟩, settled', within⟩
    intro a
    rw [show lo + (hi - lo) = hi by omega]

/-- The groups of the pages from `u` up to `n`, under `g`, that have no table yet. -/
def lacking (g : ℕ → ℕ) (has : ℕ → Prop) [DecidablePred has] (u n : ℕ) : ℕ :=
  (((Finset.Ico u n).image g).filter fun b => ¬ has b).card

/-- Taking the first page of the range gives its group a table. -/
theorem lacking_succ {g : ℕ → ℕ} {has has' : ℕ → Prop} [DecidablePred has] [DecidablePred has']
    (below : u < n) (gets : ∀ a, u ≤ a → a < n → (has' (g a) ↔ has (g a) ∨ g a = g u)) :
    lacking g has u n = (if has (g u) then 0 else 1) + lacking g has' (u + 1) n := by
  have range : Finset.Ico u n = insert u (Finset.Ico (u + 1) n) := by
    ext a
    simp only [Finset.mem_Ico, Finset.mem_insert]
    omega
  have rest : (((Finset.Ico (u + 1) n).image g).filter fun b => ¬ has' b) =
      ((((Finset.Ico (u + 1) n).image g).filter fun b => ¬ has b).erase (g u)) := by
    ext b
    simp only [Finset.mem_filter, Finset.mem_image, Finset.mem_Ico, Finset.mem_erase]
    constructor
    · rintro ⟨⟨a, ⟨above, under⟩, rfl⟩, none⟩
      rw [gets a (by omega) under, not_or] at none
      exact ⟨none.2, ⟨a, ⟨above, under⟩, rfl⟩, none.1⟩
    · rintro ⟨other, ⟨a, ⟨above, under⟩, rfl⟩, none⟩
      refine ⟨⟨a, ⟨above, under⟩, rfl⟩, ?_⟩
      rw [gets a (by omega) under, not_or]
      exact ⟨none, other⟩
  unfold lacking
  rw [rest, range, Finset.image_insert, Finset.filter_insert]
  by_cases here : has (g u)
  · rw [if_neg (not_not.mpr here), if_pos here, Finset.erase_eq_of_notMem (by simp [here]),
      Nat.zero_add]
  · rw [if_pos here, if_neg here, ← Finset.erase_insert_eq_erase,
      Finset.card_erase_of_mem (Finset.mem_insert_self _ _)]
    have some_ := Finset.card_pos.mpr ⟨g u, Finset.mem_insert_self (g u)
      (((Finset.Ico (u + 1) n).image g).filter fun b => ¬ has b)⟩
    omega

theorem le_lacking {g : ℕ → ℕ} {P : ℕ → Prop} [DecidablePred P] (below : u < n) :
    (if P (g u) then 0 else 1) ≤ lacking g P u n := by
  have split : lacking g P u n = _ + lacking g (fun b => P b ∨ b = g u) (u + 1) n :=
    lacking_succ below fun _ _ _ => Iff.rfl
  rw [split]
  exact Nat.le_add_right _ _

/-- The table in memory has an inner page for this entry of its root. -/
def HasInner (mem : ℕ → ℕ) (t a : ℕ) : Prop := mem (512 * t + a) ≠ 0

/-- The table in memory has a bottom page for this stretch of 512 pages. -/
def HasBottom (mem : ℕ → ℕ) (t b : ℕ) : Prop :=
  mem (512 * t + b / 512) ≠ 0 ∧ mem (512 * (mem (512 * t + b / 512) / 1024) + b % 512) ≠ 0

instance : DecidablePred (HasInner mem t) := fun _ => inferInstanceAs (Decidable (_ ≠ _))
instance : DecidablePred (HasBottom mem t) := fun _ => inferInstanceAs (Decidable (_ ∧ _))

/-- Pages that mapping the virtual pages from `u` up to `n` takes, page tables included. -/
def growPages (mem : ℕ → ℕ) (t u n : ℕ) : ℕ :=
  n - u + lacking (· / 512 / 512) (HasInner mem t) u n +
    lacking (· / 512) (HasBottom mem t) u n

theorem growPages_self (mem : ℕ → ℕ) (t u : ℕ) : growPages mem t u u = 0 := by
  simp [growPages, lacking]

theorem Tree.hasInner_iff (tree : Tree mem own t) (small : i < 512) :
    HasInner mem t i ↔ HasL1 own t i := by
  rcases tree.upper i small with ⟨zero, none⟩ | ⟨n, entry, only⟩
  · exact iff_of_false (not_not.mpr zero) (not_exists.mpr none)
  · refine iff_of_true ?_ ⟨n, (only n).mpr rfl⟩
    unfold HasInner
    omega

theorem Tree.hasBottom_iff (tree : Tree mem own t) (small : i < 512 * 512) :
    HasBottom mem t i ↔ HasL0 own t (i / 512) (i % 512) := by
  have index : i / 512 < 512 := by omega
  have low : i % 512 < 512 := by omega
  unfold HasBottom
  rcases tree.upper _ index with ⟨zero, none⟩ | ⟨n, entry, only⟩
  · refine iff_of_false (fun both => both.1 zero) ?_
    rintro ⟨m, bottom⟩
    obtain ⟨n, inner⟩ := tree.parent _ _ m bottom
    exact none n inner
  · have inner : own n = .l1 t (i / 512) := (only n).mpr rfl
    have page : (n * 1024 + 1) / 1024 = n := by omega
    rw [entry, page]
    rcases tree.lower _ n inner _ low with ⟨zero, none⟩ | ⟨m, entry', only'⟩
    · exact iff_of_false (fun both => both.2 zero) (not_exists.mpr none)
    · refine iff_of_true ⟨by omega, by omega⟩ ⟨m, (only' m).mpr rfl⟩

/-- Mapping the first page of the range takes a frame and the missing tables. -/
theorem growPages_succ (tree : Tree mem own t) (tree' : Tree mem' own' t)
    (reaches : Reaches t own own' u) (below : u < n) (small : n ≤ 2 ^ 27) :
    growPages mem t u n = 1 + missing own t u + growPages mem' t (u + 1) n := by
  have inner : lacking (· / 512 / 512) (HasInner mem t) u n =
      _ + lacking (· / 512 / 512) (HasInner mem' t) (u + 1) n :=
    lacking_succ below fun a _ under => by
      rw [tree.hasInner_iff (by omega), tree'.hasInner_iff (by omega), reaches.1]
  have bottom : lacking (· / 512) (HasBottom mem t) u n =
      _ + lacking (· / 512) (HasBottom mem' t) (u + 1) n :=
    lacking_succ below fun a _ under => by
      rw [tree.hasBottom_iff (by omega), tree'.hasBottom_iff (by omega), reaches.2]
      exact or_congr Iff.rfl ⟨fun both => by omega, fun same => by omega⟩
  unfold growPages missing
  rw [inner, bottom]
  have upper := tree.hasInner_iff (i := u / 512 / 512) (by omega)
  have lower := tree.hasBottom_iff (i := u / 512) (by omega)
  by_cases one : HasL1 own t (u / 512 / 512) <;>
    by_cases two : HasL0 own t (u / 512 / 512) (u / 512 % 512) <;>
    simp only [upper, lower, one, two, if_true, if_false] <;> omega

theorem missing_congr (upper : ∀ a, HasL1 own' t a ↔ HasL1 own t a)
    (lower : ∀ a b, HasL0 own' t a b ↔ HasL0 own t a b) : missing own' t u = missing own t u := by
  by_cases one : HasL1 own t (u / 512 / 512) <;>
    by_cases two : HasL0 own t (u / 512 / 512) (u / 512 % 512) <;>
    simp [missing, upper, lower, one, two]

theorem missing_lt_growPages (tree : Tree mem own t) (below : u < n) (small : u < 2 ^ 27) :
    missing own t u < growPages mem t u n := by
  have inner := le_lacking (g := (· / 512 / 512)) (P := HasInner mem t) below
  have bottom := le_lacking (g := (· / 512)) (P := HasBottom mem t) below
  have upper := tree.hasInner_iff (i := u / 512 / 512) (by omega)
  have lower := tree.hasBottom_iff (i := u / 512) (by omega)
  unfold growPages missing
  by_cases one : HasL1 own t (u / 512 / 512) <;>
    by_cases two : HasL0 own t (u / 512 / 512) (u / 512 % 512) <;>
    simp only [upper, lower, one, two, if_true, if_false] at inner bottom ⊢ <;> omega

/-- The loop of `uvmalloc`: it maps the pages one by one, and gives everything back when
memory runs out. -/
theorem Space.allocLoop (space : Space L v own l t (· < u) top) (settled : Settled own t)
    (clear : TopOnly top) {base newsz : ℕ} (start : base ≤ u) :
    Sat (allocLoop L (PGSIZE * t) (PGSIZE * base) newsz n (PGSIZE * u)) v E fun r s =>
      ∃ own' l', Settled own' t ∧ Within t own v own' s ∧
        ((r = 0 ∧ Space L s own' l' t (· < base) top ∧
            (u + n ≤ 2 ^ 27 → l.length < growPages v.mem t u (u + n))) ∨
          (r = newsz ∧ Space L s own' l' t (· < u + n) top ∧ Extends t own v own' s ∧
            (u + n ≤ 2 ^ 27 → growPages v.mem t u (u + n) ≤ l.length))) := by
  induction n generalizing u v own l with
  | zero =>
    refine Sat.pure ⟨own, l, settled, .refl, .inr ⟨rfl, space, .refl, fun _ => ?_⟩⟩
    rw [Nat.add_zero, growPages_self]
    exact Nat.zero_le _
  | succ n ih =>
    have few := space.maps.pages_le (n := u) space.pool fun _ below => below
    have room : u < TRAPFRAMEPG := by
      simp only [TRAPFRAMEPG]
      omega
    -- both ways of running out end in the same `uvmdealloc`
    have giveBack : ∀ s own' l', Space L s own' l' t (· < u) top → Settled own' t →
        Within t own v own' s →
        (u + (n + 1) ≤ 2 ^ 27 → l.length < growPages v.mem t u (u + (n + 1))) →
        Sat (do
          let _ ← HaloOS.uvmdealloc L (PGSIZE * t) (PGSIZE * u) (PGSIZE * base)
          pure 0) s E fun r s => ∃ own' l', Settled own' t ∧ Within t own v own' s ∧
            ((r = 0 ∧ Space L s own' l' t (· < base) top ∧
                (u + (n + 1) ≤ 2 ^ 27 → l.length < growPages v.mem t u (u + (n + 1)))) ∨
              (r = newsz ∧ Space L s own' l' t (· < u + (n + 1)) top ∧ Extends t own v own' s ∧
                (u + (n + 1) ≤ 2 ^ 27 → growPages v.mem t u (u + (n + 1)) ≤ l.length))) := by
      intro s own' l' space' settled' within short
      refine Sat.bind (space'.uvmdealloc settled' clear (fun a _ below => below) start room.le) ?_
      rintro _ s' ⟨own'', l'', space'', settled'', within'⟩
      refine Sat.pure ⟨own'', l'', settled'', within.trans within', .inl ⟨rfl, ?_, short⟩⟩
      exact ⟨space''.pool, space''.tree, space''.maps.set_congr fun a => by omega⟩
    unfold HaloOS.allocLoop
    refine Sat.bind (space.kalloc settled) ?_
    rintro r s (⟨rfl, rfl, rfl⟩ | ⟨f, rest, own₁, rfl, pos, rfl, space₁, carries, within₁, taken,
      upper, lower⟩)
    · rw [if_pos rfl]
      refine giveBack s own [] space settled .refl fun _ => ?_
      simp only [growPages, List.length_nil]
      omega
    · rw [if_neg (by simp only [PGSIZE]; omega)]
      refine Sat.bind (Sat.update (Q := fun _ s' => s.memset (PGSIZE * f) 0 = s') rfl) ?_
      rintro _ _ rfl
      have held := (carries f).mpr rfl
      obtain ⟨space₂, within₂⟩ := space₁.scribble (.inl held) (keeps_memset s f 0) rfl
      have wiped := space₁.extends_scribble held (keeps_memset s f 0)
      refine Sat.bind (space₂.mapUser carries room (lt_irrefl u) (clear u room) (.inl (by decide))) ?_
      rintro r s₃ ⟨own₃, l₃, within₃,
        ⟨rfl, short, space₃, carries₃⟩ | ⟨rfl, length, reaches, -, space₃, settled₃, adopted⟩⟩
      · refine Sat.bind (space₃.kfree carries₃) ?_
        rintro _ s₄ ⟨own₄, space₄, settled₄, within₄⟩
        refine giveBack s₄ own₄ _ space₄ settled₄
          (((within₁.trans within₂).trans within₃).trans within₄) fun _ => ?_
        have least : missing own t u < growPages v.mem t u (u + (n + 1)) :=
          missing_lt_growPages space.tree (by omega) (by omega)
        rw [missing_congr upper lower] at short
        rw [List.length_cons]
        omega
      · have next : Space L s₃ own₃ l₃ t (· < u + 1) top :=
          ⟨space₃.pool, space₃.tree, space₃.maps.set_congr fun a => by omega⟩
        have reaches' : Reaches t own own₃ u :=
          ⟨fun a => by rw [reaches.1, upper], fun a b => by rw [reaches.2, lower]⟩
        rw [missing_congr upper lower] at length
        refine (ih next settled₃ (by omega)).mono ?_
        rintro r s₄ ⟨own₄, l₄, settled₄, within₄, result⟩
        refine ⟨own₄, l₄, settled₄, ((within₁.trans within₂).trans within₃).trans within₄, ?_⟩
        have count : u + (n + 1) ≤ 2 ^ 27 → growPages v.mem t u (u + (n + 1)) =
            1 + missing own t u + growPages s₃.mem t (u + 1) (u + (n + 1)) :=
          growPages_succ space.tree next.tree reaches' (by omega)
        rw [show u + 1 + n = u + (n + 1) by omega] at result
        rw [List.length_cons, length]
        have mapped := adopted (by decide) fun k inside => by rw [mem_memset s f 0 inside, Nat.zero_mul]
        rcases result with ⟨failed, space₄, needs⟩ | ⟨done, space₄, more, needs⟩
        · refine .inl ⟨failed, space₄, fun small => ?_⟩
          have := needs small
          rw [count small]
          omega
        · refine .inr ⟨done, space₄, ((taken.trans wiped).trans mapped).trans more, fun small => ?_⟩
          have := needs small
          rw [count small]
          omega

/-- `uvmalloc` grows user memory from `oldsz` to `newsz`, or changes nothing; which of the
two depends on the number of free pages. -/
theorem Space.uvmalloc {oldsz newsz : ℕ} (space : Space L v own l t (· < pages oldsz) top)
    (settled : Settled own t) (clear : TopOnly top) :
    Sat (uvmalloc L (PGSIZE * t) oldsz newsz) v E fun r s =>
      ∃ own' l', Settled own' t ∧ Within t own v own' s ∧
        ((r = 0 ∧ Space L s own' l' t (· < pages oldsz) top ∧ oldsz ≤ newsz ∧
            (pages newsz ≤ 2 ^ 27 → l.length < growPages v.mem t (pages oldsz) (pages newsz))) ∨
          (r = max oldsz newsz ∧ Space L s own' l' t (· < pages r) top ∧ Extends t own v own' s ∧
            (pages newsz ≤ 2 ^ 27 → growPages v.mem t (pages oldsz) (pages r) ≤ l.length))) := by
  have few := space.maps.pages_le (n := pages oldsz) space.pool fun _ below => below
  unfold HaloOS.uvmalloc
  refine Sat.ite ?_ ?_
  · intro less
    have larger : max oldsz newsz = oldsz := by omega
    refine Sat.pure ⟨own, l, settled, .refl, .inr ⟨larger.symm, space, .refl, fun _ => ?_⟩⟩
    rw [growPages_self]
    exact Nat.zero_le _
  · intro grows
    have count : pages oldsz + (newsz - PGSIZE * pages oldsz + PGSIZE - 1) / PGSIZE = pages newsz := by
      simp only [pages, PGSIZE]
      omega
    rw [PGROUNDUP_eq (by omega)]
    refine (space.allocLoop settled clear (le_refl _)).mono ?_
    rw [count]
    rintro r s ⟨own', l', settled', within, ⟨rfl, space', needs⟩ | ⟨rfl, space', grown, needs⟩⟩
    · exact ⟨own', l', settled', within, .inl ⟨rfl, space', by omega, needs⟩⟩
    · exact ⟨own', l', settled', within, .inr ⟨by omega, space', grown, needs⟩⟩

/-- Work on one table leaves the address spaces of the others as they were. -/
theorem Maps.elsewhere {s : ℕ} (maps : Maps v.mem own s S top) (tree : Tree v.mem own s)
    (touches : Touches t own v own' v') (other : s ≠ t) (root : ¬ (own t).under s)
    (root' : ¬ (own' t).under s) : Maps v'.mem own' s S top :=
  maps.congr (fun _ u => touches.under (o := .user s u) other root root' rfl)
    fun _ small => tree.leaf_other touches other root root' small

theorem Tree.not_under {s : ℕ} (tree : Tree mem own t) : ¬ (own t).under s := by
  obtain ⟨p, root⟩ := tree.root
  simp [root, Owner.under]

/-- A table whose user pages are the first `n`, to be read only. -/
structure Source (v : Vm) (own : ℕ → Owner) (s n : ℕ) : Prop where
  tree : Tree v.mem own s
  maps : ∃ top, Maps v.mem own s (· < n) top

theorem Source.elsewhere {s : ℕ} (source : Source v own s n) (within : Within t own v own' v')
    (other : s ≠ t) (tree : Tree v.mem own t) (tree' : Tree v'.mem own' t) :
    Source v' own' s n := by
  obtain ⟨top, maps⟩ := source.maps
  exact ⟨source.tree.elsewhere within.touches other tree.not_under tree'.not_under,
    top, maps.elsewhere source.tree within.touches other tree.not_under tree'.not_under⟩

/-- The low part of the table reaches exactly the first `u` pages. -/
def Shape (own : ℕ → Owner) (t u : ℕ) : Prop :=
  (HasL1 own t 0 ↔ 0 < u) ∧ ∀ b, HasL0 own t 0 b ↔ 512 * b < u

/-- Pages that copying the user pages from `u` up to `n` takes, page tables included. -/
def copyPages (u n : ℕ) : ℕ :=
  n - u + (if u = 0 then 1 else 0) + ((n + 511) / 512 - (u + 511) / 512)

theorem Shape.missing (shape : Shape own t u) (small : u < 32768) :
    missing own t u = (if u = 0 then 1 else 0) + if u % 512 = 0 then 1 else 0 := by
  classical
  have high : u / 512 / 512 = 0 := by omega
  have mid : u / 512 % 512 = u / 512 := by omega
  have start : (0 < u) ↔ ¬ u = 0 := by omega
  have edge : 512 * (u / 512) < u ↔ ¬ u % 512 = 0 := by omega
  simp only [HaloOS.missing, high, mid, shape.1, shape.2, start, edge]
  by_cases zero : u = 0 <;> by_cases whole : u % 512 = 0 <;> simp [zero, whole]

theorem Shape.next (shape : Shape own t u) (small : u < 32768) (reaches : Reaches t own own' u) :
    Shape own' t (u + 1) := by
  have high : u / 512 / 512 = 0 := by omega
  have mid : u / 512 % 512 = u / 512 := by omega
  refine ⟨?_, fun b => ?_⟩
  · rw [reaches.1 0, high]
    simp
  · rw [reaches.2 0 b, shape.2 b, high, mid]
    constructor
    · rintro (old | ⟨-, rfl⟩) <;> omega
    · intro below
      by_cases here : b = u / 512
      · exact .inr ⟨rfl, here⟩
      · exact .inl (by omega)

theorem Shape.congr (shape : Shape own t u) (upper : ∀ a, HasL1 own' t a ↔ HasL1 own t a)
    (lower : ∀ a b, HasL0 own' t a b ↔ HasL0 own t a b) : Shape own' t u :=
  ⟨(upper 0).trans shape.1, fun b => (lower 0 b).trans (shape.2 b)⟩

theorem copyPages_succ (below : u < n) :
    copyPages u n = 1 + ((if u = 0 then 1 else 0) + if u % 512 = 0 then 1 else 0) +
      copyPages (u + 1) n := by
  unfold copyPages
  rw [if_neg (Nat.succ_ne_zero u)]
  split_ifs <;> omega

/-- The loop of `uvmcopy`: the new table ends up with all pages, or, when memory runs
out, with none. -/
theorem Space.copyLoop {s N : ℕ} (space : Space L v own l t (· < u) top)
    (settled : Settled own t) (clear : TopOnly top) (source : Source v own s N) (other : s ≠ t)
    (count : u + n = N) :
    Sat (copyLoop L (PGSIZE * s) (PGSIZE * t) n (PGSIZE * u)) v E fun r v' =>
      ∃ own' l', Settled own' t ∧ Within t own v own' v' ∧
        ((r = true ∧ Space L v' own' l' t (· < N) top) ∨
          (r = false ∧ Space L v' own' l' t (fun _ => False) top ∧
            (Shape own t u → l.length < copyPages u N))) := by
  induction n generalizing u v own l with
  | zero =>
    obtain rfl : u = N := by omega
    exact Sat.pure ⟨own, l, settled, .refl, .inl ⟨rfl, space⟩⟩
  | succ n ih =>
    have few := space.maps.pages_le (n := u) space.pool fun _ below => below
    have room : u < TRAPFRAMEPG := by
      simp only [TRAPFRAMEPG]
      omega
    have giveBack : ∀ v₁ own₁ l₁, Space L v₁ own₁ l₁ t (· < u) top → Settled own₁ t →
        Within t own v own₁ v₁ → (Shape own t u → l.length < copyPages u N) →
        Sat (do
          uvmunmap L (PGSIZE * t) 0 (PGSIZE * u / PGSIZE) true
          pure false) v₁ E fun r v' => ∃ own' l', Settled own' t ∧ Within t own v own' v' ∧
            ((r = true ∧ Space L v' own' l' t (· < N) top) ∨
              (r = false ∧ Space L v' own' l' t (fun _ => False) top ∧
                (Shape own t u → l.length < copyPages u N))) := by
      intro v₁ own₁ l₁ space₁ settled₁ within short
      have whole : PGSIZE * u / PGSIZE = u := by simp [PGSIZE]
      have unmap := uvmunmap_eq (L := L) (u := 0) (n := u) (by omega) (PGSIZE * t) true
      rw [whole, show (0 : ℕ) = PGSIZE * 0 by rfl, unmap]
      refine Sat.bind (space₁.unmapLoop settled₁ (fun a _ below => by omega)
        (fun a _ below => clear a (by omega))) ?_
      rintro _ v₂ ⟨own₂, l₂, space₂, settled₂, within₂⟩
      refine Sat.pure ⟨own₂, l₂, settled₂, within.trans within₂, .inr ⟨rfl, ?_, short⟩⟩
      refine ⟨space₂.pool, space₂.tree, space₂.maps.set_congr fun a => ?_⟩
      exact ⟨fun old => old.2 ⟨by omega, by omega⟩, False.elim⟩
    obtain ⟨top₀, maps⟩ := source.maps
    have total := maps.pages_le (n := N) space.pool fun _ below => below
    obtain ⟨f₀, owner⟩ := maps.frame u (by omega)
    obtain ⟨-, entry⟩ := maps.user f₀ u owner
    obtain ⟨flags, entry, low, valid, kind⟩ : ∃ flags, leaf v.mem s u = f₀ * 1024 + flags ∧
        flags < 1024 ∧ flags &&& PTE_V ≠ 0 ∧ (flags ||| 1 = 31 ∨ flags ||| 1 = 15) := by
      rcases entry with entry | entry
      · exact ⟨31, entry, by omega, by decide, .inl (by decide)⟩
      · exact ⟨15, entry, by omega, by decide, .inr (by decide)⟩
    unfold HaloOS.copyLoop
    refine Sat.bind (walk_find space.pool source.tree (by omega)) ?_
    rintro r v₁ ⟨rfl, ⟨-, none⟩ | ⟨m, bottom, rfl⟩⟩
    · have zero : flags = 0 := by omega
      simp [zero] at valid
    have above := (space.pool.managed m (by simp [bottom])).pos
    refine Sat.bind (Sat.stopIf (Q := fun _ v' => v₁ = v') ?_ fun _ => rfl) ?_
    · intro zero
      simp only [PGSIZE] at zero
      omega
    rintro _ _ rfl
    refine Sat.bind (Sat.gets (Q := fun e v' => e = f₀ * 1024 + flags ∧ v₁ = v')
      ⟨by rw [load_entry, ← source.tree.leaf_l0 bottom, entry], rfl⟩) ?_
    rintro _ _ ⟨rfl, rfl⟩
    rw [entry_and f₀ (by decide), entry_flags f₀ low]
    refine Sat.bind (Sat.stopIf (Q := fun _ v' => v₁ = v') (fun bad => absurd bad valid)
      fun _ => rfl) ?_
    rintro _ _ rfl
    refine Sat.bind (space.kalloc settled) ?_
    rintro r v₂ (⟨rfl, rfl, rfl⟩ |
      ⟨f, rest, own₂, rfl, pos, rfl, space₂, carries, within₂, -, upper, lower⟩)
    · rw [if_pos rfl]
      refine giveBack v₂ own [] space settled .refl fun _ => ?_
      rw [copyPages_succ (by omega)]
      simp only [List.length_nil]
      omega
    rw [if_neg (by simp only [PGSIZE]; omega)]
    refine Sat.bind (Sat.update (Q := fun _ v' =>
      v₂.copyPage (PGSIZE * f) (PTE2PA (f₀ * 1024 + flags)) = v') rfl) ?_
    rintro _ _ rfl
    obtain ⟨space₃, within₃⟩ := space₂.scribble (.inl ((carries f).mpr rfl))
      (keeps_copyPage v₂ f (PTE2PA (f₀ * 1024 + flags))) rfl
    refine Sat.bind (space₃.mapUser carries room (lt_irrefl u) (clear u room) kind) ?_
    rintro r v₄ ⟨own₄, l₄, within₄, ⟨rfl, short, space₄, carries₄⟩ |
      ⟨rfl, length, reaches, -, space₄, settled₄, -⟩⟩
    · refine Sat.bind (space₄.kfree carries₄) ?_
      rintro _ v₅ ⟨own₅, space₅, settled₅, within₅⟩
      refine giveBack v₅ own₅ _ space₅ settled₅
        (((within₂.trans within₃).trans within₄).trans within₅) ?_
      intro shape
      rw [(shape.congr upper lower).missing (by omega)] at short
      rw [copyPages_succ (by omega), List.length_cons]
      omega
    · have next : Space L v₄ own₄ l₄ t (· < u + 1) top :=
        ⟨space₄.pool, space₄.tree, space₄.maps.set_congr fun a => by omega⟩
      have whole := (within₂.trans within₃).trans within₄
      refine (ih next settled₄ (source.elsewhere whole other space.tree next.tree) (by omega)).mono ?_
      rintro r v₅ ⟨own₅, l₅, settled₅, within₅, done | ⟨rfl, space₅, needs⟩⟩
      · exact ⟨own₅, l₅, settled₅, whole.trans within₅, .inl done⟩
      · refine ⟨own₅, l₅, settled₅, whole.trans within₅, .inr ⟨rfl, space₅, ?_⟩⟩
        intro shape
        have less := needs ((shape.congr upper lower).next (by omega) reaches)
        rw [(shape.congr upper lower).missing (by omega)] at length
        rw [copyPages_succ (by omega), List.length_cons, length]
        omega

/-- `uvmcopy` into an empty table. -/
theorem Space.uvmcopy {s : ℕ} (sz : ℕ) (space : Space L v own l t (fun _ => False) top)
    (settled : Settled own t) (clear : TopOnly top) (source : Source v own s (pages sz))
    (other : s ≠ t) :
    Sat (uvmcopy L (PGSIZE * s) (PGSIZE * t) sz) v E fun r v' =>
      ∃ own' l', Settled own' t ∧ Within t own v own' v' ∧
        ((r = true ∧ Space L v' own' l' t (· < pages sz) top) ∨
          (r = false ∧ Space L v' own' l' t (fun _ => False) top ∧
            (Shape own t 0 → l.length < copyPages 0 (pages sz)))) :=
  Space.copyLoop (u := 0)
    ⟨space.pool, space.tree, space.maps.set_congr fun a => ⟨False.elim, fun below => by omega⟩⟩
    settled clear source other (Nat.zero_add _)

end HaloOS
