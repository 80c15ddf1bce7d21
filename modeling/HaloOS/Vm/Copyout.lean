import HaloOS.Vm.Bytes

/-! Writing user memory: `copyoutpg` against the translation of the paging hardware. The range is cut
at page borders, and each piece lands where the table translates it. -/

namespace HaloOS

open Lib

variable {v v' : Vm} {t dstva len a b u n : ℕ} {src : List Byte} {E : Stop → Prop}

/-- A user range in frames of its own: no two pages share a frame, and no frame is a page of the
table. -/
structure OwnRange (v : Vm) (t dstva len : ℕ) : Prop
    extends MappedRange v (PGSIZE * t) dstva len where
  distinct : ∀ a b, dstva ≤ a → a < dstva + len → dstva ≤ b → b < dstva + len →
    physical v (PGSIZE * t) a / PGSIZE = physical v (PGSIZE * t) b / PGSIZE →
    a / PGSIZE = b / PGSIZE
  apart : ∀ n, TablePage v.mem (PGSIZE * t) n → ∀ a, dstva ≤ a → a < dstva + len →
    physical v (PGSIZE * t) a / PGSIZE ≠ n

theorem PTE2PA_word (pte : ℕ) : PTE2PA pte / 8 = 512 * (PTE2PA pte / PGSIZE) := by
  have aligned := PTE2PA_aligned pte
  simp only [PGSIZE] at aligned ⊢
  omega

section Tables

variable {mem mem' : ℕ → ℕ} (same : ∀ n, TablePage mem (PGSIZE * t) n → ∀ k < 512,
  mem' (512 * n + k) = mem (512 * n + k))
include same

/-- The words that the hardware reads on its way are those of the table's pages. -/
theorem tables_agree : (∀ i < 512, mem' (512 * t + i) = mem (512 * t + i)) ∧
    (∀ i < 512, mem (512 * t + i) &&& PTE_V ≠ 0 → ∀ j < 512,
      mem' (PTE2PA (mem (512 * t + i)) / 8 + j) = mem (PTE2PA (mem (512 * t + i)) / 8 + j)) ∧
    ∀ i < 512, mem (512 * t + i) &&& PTE_V ≠ 0 → ∀ j < 512,
      mem (PTE2PA (mem (512 * t + i)) / 8 + j) &&& PTE_V ≠ 0 → ∀ k < 512,
      mem' (PTE2PA (mem (PTE2PA (mem (512 * t + i)) / 8 + j)) / 8 + k) =
        mem (PTE2PA (mem (PTE2PA (mem (512 * t + i)) / 8 + j)) / 8 + k) := by
  have root : PGSIZE * t / 8 = 512 * t := page_words t
  refine ⟨fun i small => ?_, fun i small valid j low => ?_, fun i small valid j low valid' k low' => ?_⟩
  · exact same t (.inl (page_number t).symm) i small
  · rw [PTE2PA_word]
    exact same _ (.inr ⟨i, small, by rwa [root], .inl (by rw [root])⟩) j low
  · rw [PTE2PA_word (mem (PTE2PA (mem (512 * t + i)) / 8 + j))]
    refine same _ (.inr ⟨i, small, by rwa [root], .inr ⟨j, low, by rwa [root], ?_⟩⟩) k low'
    rw [root]

theorem sv39_agree (u : ℕ) : sv39 mem' u 2 (PGSIZE * t) = sv39 mem u 2 (PGSIZE * t) := by
  obtain ⟨upper, middle, lower⟩ := tables_agree same
  have index : ∀ level, PX level (PGSIZE * u) < 512 := fun level => Nat.mod_lt _ (by decide)
  simp only [sv39, page_words]
  rw [upper _ (index 2)]
  by_cases valid : mem (512 * t + PX 2 (PGSIZE * u)) &&& PTE_V = 0
  · rw [if_pos valid, if_pos valid]
  rw [if_neg valid, if_neg valid, middle _ (index 2) valid _ (index 1)]
  by_cases valid' : mem (PTE2PA (mem (512 * t + PX 2 (PGSIZE * u))) / 8 +
      PX 1 (PGSIZE * u)) &&& PTE_V = 0
  · rw [if_pos valid', if_pos valid']
  · rw [if_neg valid', if_neg valid', lower _ (index 2) valid _ (index 1) valid' _ (index 0)]

theorem tablePage_agree : TablePage mem' (PGSIZE * t) n ↔ TablePage mem (PGSIZE * t) n := by
  obtain ⟨upper, middle, -⟩ := tables_agree same
  unfold TablePage
  rw [page_words]
  refine or_congr Iff.rfl (exists_congr fun i => and_congr_right fun small => ?_)
  rw [upper i small]
  refine and_congr_right fun valid => or_congr Iff.rfl (exists_congr fun j =>
    and_congr_right fun low => ?_)
  rw [middle i small valid j low]

end Tables

section Ranges

variable (range : OwnRange v t dstva len)
include range

theorem OwnRange.sub (lower : dstva ≤ a) (upper : a + n ≤ dstva + len) : OwnRange v t a n where
  user := le_trans upper range.user
  tables := range.tables
  pages := fun c low high => range.pages c (by omega) (by omega)
  distinct := fun c d low high low' high' =>
    range.distinct c d (by omega) (by omega) (by omega) (by omega)
  apart := fun m page c low high => range.apart m page c (by omega) (by omega)

/-- What is written outside of the table's pages changes no translation. -/
theorem OwnRange.translate_agree (keeps : Keeps v v' (TablePage v.mem (PGSIZE * t))) (a : ℕ) :
    translate v' (PGSIZE * t) a = translate v (PGSIZE * t) a := by
  unfold translate
  rw [sv39_agree fun m page k small => keeps.at page small]

theorem OwnRange.congr (keeps : Keeps v v' (TablePage v.mem (PGSIZE * t))) :
    OwnRange v' t dstva len := by
  have pages : ∀ m, TablePage v'.mem (PGSIZE * t) m ↔ TablePage v.mem (PGSIZE * t) m :=
    fun m => tablePage_agree fun m page k small => keeps.at page small
  have moved := range.translate_agree keeps
  have place : ∀ a, physical v' (PGSIZE * t) a = physical v (PGSIZE * t) a := by
    intro a
    rw [physical, moved]
    rfl
  refine ⟨⟨range.user, fun m page => range.tables m ((pages m).mp page), ?_⟩, ?_, ?_⟩
  · intro a low high
    rw [moved]
    exact range.pages a low high
  · intro a b low high low' high'
    rw [place, place]
    exact range.distinct a b low high low' high'
  · intro m page a low high
    rw [place]
    exact range.apart m ((pages m).mp page) a low high

/-- Different bytes of the range are different bytes of memory. -/
theorem OwnRange.injective (low : dstva ≤ a) (high : a < dstva + len) (low' : dstva ≤ b)
    (high' : b < dstva + len) (same : physical v (PGSIZE * t) a = physical v (PGSIZE * t) b) :
    a = b := by
  have offset : ∀ c, dstva ≤ c → c < dstva + len →
      physical v (PGSIZE * t) c % PGSIZE = c % PGSIZE := by
    intro c lower upper
    obtain ⟨pa0, -, -, aligned, place⟩ := range.walkaddr lower upper
    rw [← place, Nat.add_mod, aligned, Nat.zero_add, Nat.mod_mod, Nat.mod_mod]
  have page := range.distinct a b low high low' high' (by rw [same])
  have off : a % PGSIZE = b % PGSIZE := by rw [← offset a low high, same, offset b low' high']
  rw [← Nat.div_add_mod a PGSIZE, page, off, Nat.div_add_mod]

end Ranges

/-- The loop of `copyoutpg`. -/
theorem OwnRange.copyoutLoop {fuel : ℕ} (range : OwnRange v t dstva src.length)
    (enough : src.length ≤ fuel) :
    Sat (copyoutLoop (PGSIZE * t) fuel dstva src) v E fun ok v' => ok = true ∧
      (∀ j < src.length, v'.byteAt (physical v (PGSIZE * t) (dstva + j)) = src.getD j 0) ∧
      (∀ b, (∀ j < src.length, b ≠ physical v (PGSIZE * t) (dstva + j)) →
        v'.byteAt b = v.byteAt b) ∧
      ∀ a, translate v' (PGSIZE * t) a = translate v (PGSIZE * t) a := by
  induction fuel generalizing v dstva src with
  | zero =>
    refine Sat.pure ⟨rfl, fun j low => ?_, fun _ _ => rfl, fun _ => rfl⟩
    omega
  | succ fuel ih =>
    unfold HaloOS.copyoutLoop
    by_cases empty : src = []
    · subst empty
      rw [if_pos rfl]
      exact Sat.pure ⟨rfl, fun j low => absurd low (Nat.not_lt_zero j), fun _ _ => rfl, fun _ => rfl⟩
    rw [if_neg empty]
    have some : 0 < src.length := List.length_pos_iff.mpr empty
    obtain ⟨pa0, walks, nonzero, aligned, place⟩ := range.walkaddr le_rfl (by omega)
    obtain ⟨f, rfl⟩ := Nat.dvd_of_mod_eq_zero aligned
    have whole : PGROUNDDOWN dstva + dstva % PGSIZE = dstva := Nat.div_add_mod' dstva PGSIZE
    have offset : dstva - PGROUNDDOWN dstva = dstva % PGSIZE := by omega
    have inside : dstva % PGSIZE < PGSIZE := Nat.mod_lt _ (by decide)
    refine Sat.bind (Sat.ofRun (Q := fun r s => r = PGSIZE * f ∧ v = s) walks ⟨rfl, rfl⟩) ?_
    rintro _ _ ⟨rfl, rfl⟩
    rw [if_neg nonzero, offset]
    generalize count : min (PGSIZE - dstva % PGSIZE) src.length = n
    have few : n ≤ src.length ∧ dstva % PGSIZE + n ≤ PGSIZE ∧ 0 < n := by omega
    have length : (src.take n).length = n := List.length_take_of_le few.1
    have piece : ∀ j < n, physical v (PGSIZE * t) (dstva + j) = PGSIZE * f + dstva % PGSIZE + j := by
      intro j low
      rw [range.physical_add le_rfl (by omega) (by omega), place]
    have wrote : ∀ b, (v.writeBytes (PGSIZE * f + dstva % PGSIZE) (src.take n)).byteAt b =
        if PGSIZE * f + dstva % PGSIZE ≤ b ∧ b < PGSIZE * f + dstva % PGSIZE + n then
          (src.take n).getD (b - (PGSIZE * f + dstva % PGSIZE)) 0 else v.byteAt b := by
      intro b
      rw [byteAt_writeBytes, length]
    have kept : Keeps v (v.writeBytes (PGSIZE * f + dstva % PGSIZE) (src.take n)) (· ≠ f) :=
      keeps_writeBytes v (by rw [length]; exact few.2.1)
    have keeps : Keeps v (v.writeBytes (PGSIZE * f + dstva % PGSIZE) (src.take n))
        (TablePage v.mem (PGSIZE * t)) := by
      refine kept.mono fun m page => ?_
      have other := range.apart m page dstva le_rfl (by omega)
      rw [← place] at other
      rintro rfl
      simp only [PGSIZE] at other inside
      omega
    refine Sat.bind (Sat.update (Q := fun _ s =>
      s = v.writeBytes (PGSIZE * f + dstva % PGSIZE) (src.take n)) rfl) ?_
    rintro _ v₁ made
    rw [← made] at wrote keeps
    have moved := range.translate_agree keeps
    have same : ∀ a, physical v₁ (PGSIZE * t) a = physical v (PGSIZE * t) a := by
      intro a
      rw [physical, moved]
      rfl
    -- the bytes of this round
    have round : ∀ j < n, v₁.byteAt (physical v (PGSIZE * t) (dstva + j)) = src.getD j 0 := by
      intro j low
      rw [piece j low, wrote, if_pos (by omega), Nat.add_sub_cancel_left]
      simp [low]
    have others : ∀ b, (∀ j < n, b ≠ physical v (PGSIZE * t) (dstva + j)) →
        v₁.byteAt b = v.byteAt b := by
      intro b outside
      rw [wrote, if_neg]
      rintro ⟨low, high⟩
      refine outside (b - (PGSIZE * f + dstva % PGSIZE)) (by omega) ?_
      rw [piece _ (by omega)]
      omega
    by_cases last : src.drop n = []
    · have all : n = src.length := by
        have none := List.drop_eq_nil_iff.mp last
        omega
      rw [last]
      cases fuel <;> exact Sat.pure ⟨rfl, fun j low => round j (all ▸ low),
        fun b outside => others b (all ▸ outside), moved⟩
    · have more : ¬ src.length ≤ n := fun all => last (List.drop_eq_nil_iff.mpr all)
      have next : PGROUNDDOWN dstva + PGSIZE = dstva + n := by omega
      have left : (src.drop n).length = src.length - n := List.length_drop
      rw [next]
      have range' : OwnRange v₁ t (dstva + n) (src.drop n).length :=
        (range.sub (by omega) (by omega)).congr keeps
      refine (ih range' (by omega)).mono ?_
      rintro ok v' ⟨done, copied, kept', moved'⟩
      refine ⟨done, fun j low => ?_, fun b outside => ?_, fun a => by rw [moved', moved]⟩
      · by_cases first : j < n
        · rw [kept' _ fun k small clash => ?_, round j first]
          rw [same] at clash
          have equal := range.injective (by omega) (by omega) (by omega) (by omega) clash
          omega
        · have rest := copied (j - n) (by omega)
          rw [same, show dstva + n + (j - n) = dstva + j by omega] at rest
          rw [rest]
          simp only [List.getD_eq_getElem?_getD, List.getElem?_drop]
          rw [show n + (j - n) = j by omega]
      · rw [kept' b fun k small => ?_, others b fun j low => outside j (by omega)]
        rw [same, Nat.add_assoc]
        exact outside (n + k) (by omega)

/-- `copyoutpg` puts every byte where the table translates its address and writes no other; the
table translates as before. -/
theorem copyoutpg_exact (range : OwnRange v t dstva src.length) :
    ∃ v', copyoutpg (PGSIZE * t) dstva src v = .ok (true, v') ∧
      (∀ j < src.length, ∃ pa, translate v' (PGSIZE * t) (dstva + j) = some pa ∧
        v'.byteAt pa = src.getD j 0) ∧
      (∀ b, (∀ j < src.length, translate v (PGSIZE * t) (dstva + j) ≠ some b) →
        v'.byteAt b = v.byteAt b) ∧
      ∀ a, translate v' (PGSIZE * t) a = translate v (PGSIZE * t) a := by
  obtain ⟨ok, v', returned, rfl, copied, kept, moved⟩ :=
    (range.copyoutLoop (E := fun _ => False) le_rfl).returns
  refine ⟨v', returned, fun j low => ?_, fun b outside => kept b fun j low same => ?_, moved⟩
  · obtain ⟨pa, found, -⟩ := range.pages (dstva + j) (by omega) (by omega)
    refine ⟨pa, by rw [moved, found], ?_⟩
    rw [← copied j low, physical_eq found]
  · obtain ⟨pa, found, -⟩ := range.pages (dstva + j) (by omega) (by omega)
    rw [physical_eq found] at same
    exact outside j low (same ▸ found)

/-- Two bytes across the border of two pages in frames that are not neighbours. -/
theorem copyoutpg_exact_scattered : OwnRange scattered 524288 (2 * PGSIZE - 1) 2 ∧
    ∃ v', copyoutpg (PGSIZE * 524288) (2 * PGSIZE - 1) [5, 6] scattered = .ok (true, v') ∧
      ∀ j < 2, ∃ pa, translate v' (PGSIZE * 524288) (2 * PGSIZE - 1 + j) = some pa ∧
        v'.byteAt pa = [5, 6].getD j 0 := by
  have page : ∀ a, 2 * PGSIZE - 1 ≤ a → a < 2 * PGSIZE - 1 + 2 →
      a / PGSIZE = 1 ∨ a / PGSIZE = 2 :=
    fun a low high => scattered_page (by simp only [PGSIZE] at *; omega)
      (by simp only [PGSIZE] at *; omega)
  have place : ∀ a, 2 * PGSIZE - 1 ≤ a → a < 2 * PGSIZE - 1 + 2 →
      physical scattered (PGSIZE * 524288) a / PGSIZE =
        if a / PGSIZE = 1 then 524291 else 524293 := by
    intro a low high
    have off : a % PGSIZE < PGSIZE := Nat.mod_lt _ (by decide)
    rw [physical_eq (scattered_translate (page a low high)), Nat.mul_add_div (by decide),
      Nat.div_eq_of_lt off, Nat.add_zero]
  have range : OwnRange scattered 524288 (2 * PGSIZE - 1) 2 := by
    refine ⟨scattered_mapped (by decide) (by decide), ?_, ?_⟩
    · intro a b low high low' high' same
      rw [place a low high, place b low' high'] at same
      rcases page a low high with first | first <;> rcases page b low' high' with second | second <;>
        simp [first, second] at same ⊢
    · intro n table a low high
      rw [place a low high]
      rcases scattered_tables n table with rfl | rfl | rfl <;> split <;> decide
  obtain ⟨v', returned, copied, -⟩ := copyoutpg_exact (show OwnRange _ _ _ (List.length [5, 6]) from range)
  exact ⟨range, v', returned, copied⟩

end HaloOS
