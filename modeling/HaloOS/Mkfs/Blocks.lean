import HaloOS.Lib.Numbering
import HaloOS.Mkfs.Model
import Mathlib.Data.List.GetD

/-! Where block numbers are stored. Blocks are handed out in order, so the list of the
places that received one, in that order, says which block every place holds. -/

namespace HaloOS.Mkfs

open Lib

/-- A place of the image that can hold a block number. -/
inductive Place where
  | direct (i k : ℕ)
  | indirect (i : ℕ)
  | entry (i j : ℕ)
  deriving DecidableEq

def Place.Valid : Place → Prop
  | .direct _ k => k < NDIRECT
  | .indirect _ => True
  | .entry _ j => j < NINDIRECT

def Place.owner : Place → ℕ
  | .direct i _ => i
  | .indirect i => i
  | .entry i _ => i

/-- The block number a place holds, given the inodes and the blocks. -/
def stored (table : ℕ → Dinode) (data : ℕ → Block) : Place → ℕ
  | .direct i k => (table i).addrs k
  | .indirect i => (table i).addrs NDIRECT
  | .entry i j =>
    if (table i).addrs NDIRECT = 0 then 0 else u32 (data ((table i).addrs NDIRECT)) (4 * j)

/-- The place that holds the number of block `fbn` of inode `i`. -/
def place (i fbn : ℕ) : Place :=
  if fbn < NDIRECT then .direct i fbn else .entry i (fbn - NDIRECT)

variable {table table' : ℕ → Dinode} {data : ℕ → Block} {contents : ℕ → List Byte}
  {places : List Place} {π : Place} {i j k fbn b : ℕ}

theorem place_inj {i' fbn' : ℕ} (same : place i fbn = place i' fbn') : i = i' ∧ fbn = fbn' := by
  unfold place at same
  split at same <;> split at same <;>
    simp only [Place.direct.injEq, Place.entry.injEq, reduceCtorEq] at same
  · exact same
  · exact ⟨same.1, by omega⟩

theorem place_ne_indirect {i' : ℕ} : place i fbn ≠ .indirect i' := by
  unfold place
  split <;> simp

theorem place_valid (small : fbn < MAXFILE) : (place i fbn).Valid := by
  simp only [MAXFILE, NDIRECT, NINDIRECT] at small
  unfold place
  split
  · assumption
  · simp only [Place.Valid, NDIRECT, NINDIRECT]
    omega

/-- The places hold the numbers that were handed out, the blocks named by them hold the
contents of the inodes, and blocks not yet handed out are zero. -/
structure Blocks (table : ℕ → Dinode) (data : ℕ → Block) (contents : ℕ → List Byte)
    (places : List Place) : Prop where
  nodup : places.Nodup
  addrs : ∀ π : Place, π.Valid → stored table data π = number nmeta places π
  bytes : ∀ i fbn, place i fbn ∈ places → ∀ o < BSIZE,
    data (number nmeta places (place i fbn)) o = (contents i).getD (fbn * BSIZE + o) 0
  zero : ∀ b, nmeta + places.length ≤ b → data b = fun _ => 0

theorem nmeta_pos : 0 < nmeta := by decide

theorem Blocks.stored_eq_zero (blocks : Blocks table data contents places) (valid : π.Valid) :
    stored table data π = 0 ↔ π ∉ places := by
  rw [blocks.addrs π valid, number_eq_zero nmeta_pos]

/-- Without an indirect block there are no entries. -/
theorem Blocks.entry_not_mem (blocks : Blocks table data contents places)
    (absent : .indirect i ∉ places) (small : j < NINDIRECT) : .entry i j ∉ places := by
  have none : stored table data (.indirect i) = 0 :=
    (blocks.stored_eq_zero (π := .indirect i) trivial).mpr absent
  refine (blocks.stored_eq_zero (π := .entry i j) small).mp ?_
  simp only [stored] at none ⊢
  rw [if_pos none]

/-- Only the fields that reach the disk matter. -/
theorem Blocks.congr (blocks : Blocks table data contents places)
    (same : ∀ i, ∀ k ≤ NDIRECT, (table' i).addrs k = (table i).addrs k) :
    Blocks table' data contents places where
  nodup := blocks.nodup
  addrs := by
    intro π valid
    rw [← blocks.addrs π valid]
    cases π with
    | direct i k => exact same i k (le_of_lt valid)
    | indirect i => exact same i NDIRECT (le_refl _)
    | entry i j => simp only [stored, same i NDIRECT (le_refl _)]
  bytes := blocks.bytes
  zero := blocks.zero

section Allocation

theorem Blocks.nodup_append (blocks : Blocks table data contents places) (absent : π ∉ places) :
    (places ++ [π]).Nodup := by
  refine List.nodup_append.mpr ⟨blocks.nodup, List.nodup_singleton π, ?_⟩
  rintro a member b single rfl
  exact absent (List.mem_singleton.mp single ▸ member)

/-- The inode table after block number `b` went into address `k` of inode `i`. -/
def setAddr (table : ℕ → Dinode) (i k b : ℕ) : ℕ → Dinode :=
  Function.update table i { table i with addrs := Function.update (table i).addrs k b }

theorem setAddr_self (table : ℕ → Dinode) (i k b : ℕ) : (setAddr table i k b i).addrs k = b := by
  simp [setAddr]

theorem setAddr_of_ne {i' k' : ℕ} (other : i' = i → k' ≠ k) :
    (setAddr table i k b i').addrs k' = (table i').addrs k' := by
  by_cases same : i' = i
  · subst same
    simp [setAddr, Function.update_of_ne (other rfl)]
  · simp [setAddr, Function.update_of_ne same]

/-- What a new place adds to blocks that are zero so far. -/
theorem Blocks.bytes_append (blocks : Blocks table data contents places)
    (past : ∀ i fbn, π = place i fbn → (contents i).length ≤ fbn * BSIZE) (absent : π ∉ places)
    (member : place i fbn ∈ places ++ [π]) {o : ℕ} (inside : o < BSIZE) :
    data (number nmeta (places ++ [π]) (place i fbn)) o = (contents i).getD (fbn * BSIZE + o) 0 := by
  by_cases new : place i fbn = π
  · have beyond := past i fbn new.symm
    rw [new, number_append_self absent, blocks.zero _ (le_refl _), List.getD_eq_default _ _ (by omega)]
  · rw [number_append_of_ne new]
    have old : place i fbn ∈ places := by simpa [new] using member
    exact blocks.bytes i fbn old o inside

theorem Blocks.allocDirect (blocks : Blocks table data contents places) (small : k < NDIRECT)
    (absent : .direct i k ∉ places) (past : (contents i).length ≤ k * BSIZE) :
    Blocks (setAddr table i k (nmeta + places.length)) data contents (places ++ [.direct i k]) where
  nodup := blocks.nodup_append absent
  addrs := by
    intro π valid
    by_cases new : π = .direct i k
    · subst new
      rw [number_append_self absent]
      exact setAddr_self ..
    · rw [number_append_of_ne new, ← blocks.addrs π valid]
      cases π with
      | direct i' k' =>
        refine setAddr_of_ne fun same other => new ?_
        rw [same, other]
      | indirect i' => exact setAddr_of_ne fun _ => by omega
      | entry i' j =>
        simp only [stored]
        rw [setAddr_of_ne fun _ => by omega]
  bytes := by
    intro i' fbn member o inside
    refine blocks.bytes_append ?_ absent member inside
    intro i'' fbn' same
    have equal : place i k = place i'' fbn' := by rw [← same, place, if_pos small]
    obtain ⟨rfl, rfl⟩ := place_inj equal
    exact past
  zero := by
    intro b beyond
    rw [List.length_append, List.length_singleton] at beyond
    exact blocks.zero b (by omega)

theorem Blocks.allocIndirect (blocks : Blocks table data contents places)
    (absent : .indirect i ∉ places) :
    Blocks (setAddr table i NDIRECT (nmeta + places.length)) data contents
      (places ++ [.indirect i]) where
  nodup := blocks.nodup_append absent
  addrs := by
    intro π valid
    by_cases new : π = .indirect i
    · subst new
      rw [number_append_self absent]
      exact setAddr_self ..
    · rw [number_append_of_ne new]
      cases π with
      | direct i' k' =>
        rw [← blocks.addrs _ valid]
        simp only [Place.Valid] at valid
        exact setAddr_of_ne fun _ => by omega
      | indirect i' =>
        rw [← blocks.addrs _ valid]
        refine setAddr_of_ne fun same => ?_
        rw [same] at new
        exact absurd rfl new
      | entry i' j =>
        by_cases same : i' = i
        · subst same
          -- the fresh indirect block is zero, and so are the numbers of its entries
          rw [number_of_not_mem (blocks.entry_not_mem absent valid)]
          simp only [stored]
          rw [setAddr_self, blocks.zero _ (le_refl _), u32_zero, ite_self]
        · rw [← blocks.addrs _ valid]
          simp only [stored]
          rw [setAddr_of_ne fun bad => absurd bad same]
  bytes := by
    intro i' fbn member o inside
    refine blocks.bytes_append ?_ absent member inside
    intro i'' fbn' same
    exact absurd same.symm place_ne_indirect
  zero := by
    intro b beyond
    rw [List.length_append, List.length_singleton] at beyond
    exact blocks.zero b (by omega)

theorem Blocks.allocEntry (blocks : Blocks table data contents places) (small : j < NINDIRECT)
    (present : .indirect i ∈ places) (absent : .entry i j ∉ places)
    (past : (contents i).length ≤ (NDIRECT + j) * BSIZE)
    (fits : nmeta + places.length < UINT) :
    Blocks table (Function.update data (number nmeta places (.indirect i))
      (putU32 (4 * j) (nmeta + places.length) (data (number nmeta places (.indirect i)))))
      contents (places ++ [.entry i j]) where
  nodup := blocks.nodup_append absent
  addrs := by
    intro π valid
    have pointer : ∀ i', (table i').addrs NDIRECT = number nmeta places (.indirect i') :=
      fun i' => blocks.addrs (.indirect i') trivial
    by_cases new : π = .entry i j
    · subst new
      have nonzero : number nmeta places (.indirect i) ≠ 0 := by
        rw [Ne, number_eq_zero nmeta_pos]
        exact not_not.mpr present
      rw [number_append_self absent]
      simp only [stored, pointer]
      rw [if_neg nonzero, Function.update_self, u32_putU32, Nat.mod_eq_of_lt fits]
    · rw [number_append_of_ne new, ← blocks.addrs π valid]
      cases π with
      | direct i' k' => rfl
      | indirect i' => rfl
      | entry i' j' =>
        simp only [stored, pointer]
        by_cases none : number nmeta places (.indirect i') = 0
        · rw [if_pos none, if_pos none]
        · rw [if_neg none, if_neg none]
          by_cases same : i' = i
          · subst same
            have apart : j' ≠ j := by
              rintro rfl
              exact new rfl
            rw [Function.update_self, u32_putU32_of_ne (by omega)]
          · rw [Function.update_of_ne]
            intro clash
            have member : Place.indirect i' ∈ places :=
              not_not.mp fun bad => none ((number_eq_zero nmeta_pos).mpr bad)
            have equal := number_inj member present clash
            simp only [Place.indirect.injEq] at equal
            exact same equal
  bytes := by
    intro i' fbn member o inside
    have away : number nmeta (places ++ [.entry i j]) (place i' fbn) ≠
        number nmeta places (.indirect i) := by
      have kept : number nmeta (places ++ [.entry i j]) (.indirect i) =
          number nmeta places (.indirect i) := number_append_of_ne (by simp)
      rw [← kept]
      intro clash
      exact place_ne_indirect (number_inj member (by simp [present]) clash)
    rw [Function.update_of_ne away]
    refine blocks.bytes_append ?_ absent member inside
    intro i'' fbn' same
    have equal : place i (NDIRECT + j) = place i'' fbn' := by
      rw [← same, place, if_neg (by omega), Nat.add_sub_cancel_left]
    obtain ⟨rfl, rfl⟩ := place_inj equal
    exact past
  zero := by
    intro b beyond
    rw [List.length_append, List.length_singleton] at beyond
    have inside : number nmeta places (.indirect i) < nmeta + places.length := number_lt present
    rw [Function.update_of_ne (by omega)]
    exact blocks.zero b (by omega)

end Allocation

/-- Writing a block of an inode changes its contents and nothing else. -/
theorem Blocks.write {content : List Byte} {buf : Block}
    (blocks : Blocks table data contents places) (member : place i fbn ∈ places)
    (new : ∀ o < BSIZE, buf o = content.getD (fbn * BSIZE + o) 0)
    (old : ∀ fbn', fbn' ≠ fbn → place i fbn' ∈ places → ∀ o < BSIZE,
      content.getD (fbn' * BSIZE + o) 0 = (contents i).getD (fbn' * BSIZE + o) 0) :
    Blocks table (Function.update data (number nmeta places (place i fbn)) buf)
      (Function.update contents i content) places where
  nodup := blocks.nodup
  addrs := by
    intro π valid
    rw [← blocks.addrs π valid]
    cases π with
    | direct i' k' => rfl
    | indirect i' => rfl
    | entry i' j =>
      have pointer : (table i').addrs NDIRECT = number nmeta places (.indirect i') :=
        blocks.addrs (.indirect i') trivial
      simp only [stored, pointer]
      by_cases none : number nmeta places (.indirect i') = 0
      · rw [if_pos none, if_pos none]
      · rw [if_neg none, if_neg none, Function.update_of_ne]
        intro clash
        have present : Place.indirect i' ∈ places :=
          not_not.mp fun bad => none ((number_eq_zero nmeta_pos).mpr bad)
        exact place_ne_indirect (number_inj present member clash).symm
  bytes := by
    intro i' fbn' member' o inside
    by_cases same : place i' fbn' = place i fbn
    · obtain ⟨rfl, rfl⟩ := place_inj same
      rw [Function.update_self, Function.update_self]
      exact new o inside
    · rw [Function.update_of_ne fun clash => same (number_inj member' member clash),
        blocks.bytes i' fbn' member' o inside]
      by_cases here : i' = i
      · subst here
        rw [Function.update_self]
        refine (old fbn' ?_ member' o inside).symm
        rintro rfl
        exact same rfl
      · rw [Function.update_of_ne here]
  zero := by
    intro b beyond
    have inside : number nmeta places (place i fbn) < nmeta + places.length := number_lt member
    rw [Function.update_of_ne (by omega)]
    exact blocks.zero b beyond

end HaloOS.Mkfs
