import HaloOS.Fs.Store
import HaloOS.Mkfs.Blocks

/-! The block map: which block every index of every inode has. `mapBlock` says what `bmap`
does to the inode and to the contents of the blocks, and when that keeps the map in order. -/

namespace HaloOS

open Lib Mkfs

variable {sb : Superblock} {T : ℕ → Dinode} {V : ℕ → Block} {d : Dinode} {i n x : ℕ} {π : Place}

/-- Every block that is reachable from an inode is marked, reachable once and no metadata, and
the metadata blocks, up to the bitmap, are marked. -/
structure MapSound (sb : Superblock) (T : ℕ → Dinode) (V : ℕ → Block) : Prop where
  metadata : ∀ b ≤ sb.bmapstart, bitSet (V sb.bmapstart) b = true
  marked : ∀ π : Place, π.Valid → π.owner < sb.ninodes → stored T V π ≠ 0 →
    sb.bmapstart < stored T V π ∧ stored T V π < sb.size ∧ bitSet (V sb.bmapstart) (stored T V π) = true
  once : ∀ π π' : Place, π.Valid → π.owner < sb.ninodes → π'.Valid → π'.owner < sb.ninodes →
    stored T V π ≠ 0 → stored T V π = stored T V π' → π = π'

/-- The inode with block address `k` replaced. -/
def Dinode.setAddr (d : Dinode) (k x : ℕ) : Dinode := { d with addrs := Function.update d.addrs k x }

/-- What `bmap` returns and leaves behind, unless the image is full. -/
def mapBlock (sb : Superblock) (V : ℕ → Block) (d : Dinode) (n : ℕ) : Option (ℕ × Dinode × (ℕ → Block)) :=
  if n < NDIRECT then
    if d.addrs n = 0 then do
      let x ← firstFree sb V
      pure (x, d.setAddr n x, taken sb V x)
    else pure (d.addrs n, d, V)
  else do
    let (d, V) ← if d.addrs NDIRECT = 0 then do
        let x ← firstFree sb V
        pure (d.setAddr NDIRECT x, taken sb V x)
      else pure (d, V)
    let addr := u32 (V (d.addrs NDIRECT)) (4 * (n - NDIRECT))
    if addr = 0 then do
      let x ← firstFree sb V
      pure (x, d, Function.update (taken sb V x) (d.addrs NDIRECT)
        (putU32 (4 * (n - NDIRECT)) x (taken sb V x (d.addrs NDIRECT))))
    else pure (addr, d, V)

theorem mapped_eq_stored (T : ℕ → Dinode) (V : ℕ → Block) (i n : ℕ) :
    mapped V (T i) n = stored T V (place i n) := by
  unfold mapped place
  split <;> rfl

theorem stored_entry (T : ℕ → Dinode) (V : ℕ → Block) (j k : ℕ) : stored T V (.entry j k) =
    if (T j).addrs NDIRECT = 0 then 0 else u32 (V ((T j).addrs NDIRECT)) (4 * k) := rfl

/-- `bmap` of index `n` of inode `i` is right: the map stays in order, the block is reachable as
index `n` only, and no other index of any inode changes. -/
structure MapsRight (sb : Superblock) (T : ℕ → Dinode) (V : ℕ → Block) (i n r : ℕ) (T' : ℕ → Dinode)
    (V' : ℕ → Block) : Prop where
  sound : MapSound sb T' V'
  some : r ≠ 0
  here : mapped V' (T' i) n = r
  only : ∀ π : Place, π.Valid → π.owner < sb.ninodes → stored T' V' π = r → π = place i n
  others : ∀ j < sb.ninodes, ∀ m < MAXFILE, (j, m) ≠ (i, n) → mapped V' (T' j) m = mapped V (T j) m

/-- Block `f` serves as indirect block: zeros in all entries but that of `n`, and there zero or a
block that is marked and reachable from nowhere. -/
def ServesAt (sb : Superblock) (T : ℕ → Dinode) (V : ℕ → Block) (n f : ℕ) : Prop :=
  (∀ j < NINDIRECT, j ≠ n - NDIRECT → u32 (V f) (4 * j) = 0) ∧
  (u32 (V f) (4 * (n - NDIRECT)) = 0 ∨
    (sb.bmapstart < u32 (V f) (4 * (n - NDIRECT)) ∧ u32 (V f) (4 * (n - NDIRECT)) < sb.size ∧
      bitSet (V sb.bmapstart) (u32 (V f) (4 * (n - NDIRECT))) = true ∧
      ∀ π : Place, π.Valid → π.owner < sb.ninodes → stored T V π ≠ u32 (V f) (4 * (n - NDIRECT))))

/-- The exact condition: no indirect block is taken, or the one that is taken serves as it is. -/
def MapsWhen (sb : Superblock) (T : ℕ → Dinode) (V : ℕ → Block) (i n : ℕ) : Prop :=
  n < NDIRECT ∨ (T i).addrs NDIRECT ≠ 0 ∨ ∀ f, firstFree sb V = some f → ServesAt sb T V n f

section Taking

theorem taken_of_ne {b : ℕ} (small : x < BPB) (other : b ≠ sb.bmapstart) : taken sb V x b = V b := by
  unfold taken
  rw [BBLOCK_small small, Function.update_of_ne other]

theorem bit_taken (small : x < BPB) (b : ℕ) :
    bitSet (taken sb V x sb.bmapstart) b = (decide (b = x) || bitSet (V sb.bmapstart) b) := by
  unfold taken
  rw [BBLOCK_small small, Function.update_self, bitSet_setBit, Nat.mod_eq_of_lt small]

end Taking

namespace MapSound

variable (sound : MapSound sb T V)

include sound

/-- The block that `balloc` takes next is a data block that nothing reaches. -/
theorem fresh (first : firstFree sb V = some x) : sb.bmapstart < x ∧
    ∀ π : Place, π.Valid → π.owner < sb.ninodes → stored T V π ≠ x := by
  obtain ⟨inside, small, clear⟩ := firstFree_some first
  constructor
  · by_contra low
    have set := sound.metadata x (by omega)
    rw [clear] at set
    cases set
  · intro π valid owner same
    have nonzero : stored T V π ≠ 0 := by
      intro zero
      have set := sound.metadata 0 (Nat.zero_le _)
      rw [← zero, same, clear] at set
      cases set
    have set := (sound.marked π valid owner nonzero).2.2
    rw [same, clear] at set
    cases set

/-- A block that nothing reaches is put into an empty place. -/
theorem add {T' : ℕ → Dinode} {V' : ℕ → Block} {π₀ : Place} (range : sb.bmapstart < x ∧ x < sb.size)
    (unreached : ∀ π : Place, π.Valid → π.owner < sb.ninodes → stored T V π ≠ x)
    (bits : ∀ b, bitSet (V' sb.bmapstart) b = true ↔ b = x ∨ bitSet (V sb.bmapstart) b = true)
    (here : stored T' V' π₀ = x)
    (others : ∀ π : Place, π.Valid → π.owner < sb.ninodes → π ≠ π₀ → stored T' V' π = stored T V π) :
    MapSound sb T' V' where
  metadata := fun b low => (bits b).mpr (.inr (sound.metadata b low))
  marked := by
    intro π valid owner some
    by_cases self : π = π₀
    · subst self
      rw [here]
      exact ⟨range.1, range.2, (bits x).mpr (.inl rfl)⟩
    · rw [others π valid owner self] at some ⊢
      obtain ⟨low, high, bit⟩ := sound.marked π valid owner some
      exact ⟨low, high, (bits _).mpr (.inr bit)⟩
  once := by
    intro π π' valid owner valid' owner' some same
    by_cases self : π = π₀
    · by_cases self' : π' = π₀
      · rw [self, self']
      · rw [self, here, others π' valid' owner' self'] at same
        exact absurd same.symm (unreached π' valid' owner')
    · rw [others π valid owner self] at some same
      by_cases self' : π' = π₀
      · rw [self', here] at same
        exact absurd same (unreached π valid owner)
      · rw [others π' valid' owner' self'] at same
        exact sound.once π π' valid owner valid' owner' some same

/-- Taking an unreached block for index `n` is right. -/
theorem add_right {T' : ℕ → Dinode} {V' : ℕ → Block} (range : sb.bmapstart < x ∧ x < sb.size)
    (unreached : ∀ π : Place, π.Valid → π.owner < sb.ninodes → stored T V π ≠ x)
    (bits : ∀ b, bitSet (V' sb.bmapstart) b = true ↔ b = x ∨ bitSet (V sb.bmapstart) b = true)
    (here : stored T' V' (place i n) = x)
    (others : ∀ π : Place, π.Valid → π.owner < sb.ninodes → π ≠ place i n →
      stored T' V' π = stored T V π) : MapsRight sb T V i n x T' V' where
  sound := sound.add range unreached bits here others
  some := by omega
  here := by rw [mapped_eq_stored, here]
  only := by
    intro π valid owner same
    by_contra other
    rw [others π valid owner other] at same
    exact unreached π valid owner same
  others := by
    intro j inside m small other
    rw [mapped_eq_stored, mapped_eq_stored]
    refine others _ (place_valid small) ?_ fun same => ?_
    · unfold place
      split <;> exact inside
    · obtain ⟨rfl, rfl⟩ := place_inj same
      exact other rfl

/-- The contents of an indirect block are not the bitmap. -/
theorem indirect_above (inside : i < sb.ninodes) (some : (T i).addrs NDIRECT ≠ 0) :
    sb.bmapstart < (T i).addrs NDIRECT :=
  (sound.marked (.indirect i) trivial inside some).1

/-- A mapped index stays as it is. -/
theorem mapped_right (inside : i < sb.ninodes) (small : n < MAXFILE) (some : mapped V (T i) n ≠ 0) :
    MapsRight sb T V i n (mapped V (T i) n) T V where
  sound := sound
  some := some
  here := rfl
  only := by
    intro π valid owner same
    rw [mapped_eq_stored] at some same
    refine sound.once π (place i n) valid owner (place_valid small) ?_ (same ▸ some) same
    unfold place
    split <;> exact inside
  others := fun _ _ _ _ _ => rfl

/-- A direct block is taken. -/
theorem direct_right (first : firstFree sb V = some x) (direct : n < NDIRECT) :
    MapsRight sb T V i n x (Function.update T i ((T i).setAddr n x)) (taken sb V x) := by
  obtain ⟨inside, small, -⟩ := firstFree_some first
  obtain ⟨above, unreached⟩ := sound.fresh first
  have slot : place i n = .direct i n := if_pos direct
  refine sound.add_right ⟨above, inside⟩ unreached (fun b => by simp [bit_taken small]) ?_ ?_
  · simp [slot, stored, Dinode.setAddr]
  · intro π valid owner other
    rw [slot] at other
    have pointer : ∀ j, (Function.update T i ((T i).setAddr n x) j).addrs NDIRECT =
        (T j).addrs NDIRECT := by
      intro j
      by_cases self : j = i
      · subst self
        simp [Dinode.setAddr, Function.update_of_ne (show NDIRECT ≠ n by omega)]
      · rw [Function.update_of_ne self]
    cases π with
    | direct j k =>
      by_cases self : j = i
      · subst self
        have apart : k ≠ n := fun same => other (by rw [same])
        simp [stored, Dinode.setAddr, Function.update_of_ne apart]
      · simp [stored, Function.update_of_ne self]
    | indirect j => exact pointer j
    | entry j k =>
      rw [stored_entry, stored_entry, pointer j]
      by_cases none : (T j).addrs NDIRECT = 0
      · rw [if_pos none, if_pos none]
      · have away : sb.bmapstart < (T j).addrs NDIRECT := sound.indirect_above owner none
        rw [if_neg none, if_neg none, taken_of_ne small (by omega)]

/-- An entry of an indirect block is taken. -/
theorem entry_right (inside : i < sb.ninodes) (indirect : ¬ n < NDIRECT)
    (present : (T i).addrs NDIRECT ≠ 0) (first : firstFree sb V = some x) :
    MapsRight sb T V i n x T (Function.update (taken sb V x) ((T i).addrs NDIRECT)
      (putU32 (4 * (n - NDIRECT)) x (taken sb V x ((T i).addrs NDIRECT)))) := by
  obtain ⟨high, small, -⟩ := firstFree_some first
  obtain ⟨above, unreached⟩ := sound.fresh first
  have away := sound.indirect_above inside present
  have slot : place i n = .entry i (n - NDIRECT) := if_neg indirect
  refine sound.add_right ⟨above, high⟩ unreached (fun b => ?_) ?_ ?_
  · rw [Function.update_of_ne (by omega)]
    simp [bit_taken small]
  · rw [slot]
    rw [stored_entry, if_neg present, Function.update_self, u32_putU32]
    refine Nat.mod_eq_of_lt ?_
    simp only [BPB, BSIZE, UINT] at *
    omega
  · intro π valid owner other
    rw [slot] at other
    cases π with
    | direct j k => rfl
    | indirect j => rfl
    | entry j k =>
      rw [stored_entry, stored_entry]
      by_cases none : (T j).addrs NDIRECT = 0
      · rw [if_pos none, if_pos none]
      rw [if_neg none, if_neg none]
      have away' : sb.bmapstart < (T j).addrs NDIRECT := sound.indirect_above owner none
      by_cases same : (T j).addrs NDIRECT = (T i).addrs NDIRECT
      · -- the same indirect block belongs to the same inode
        have pointer := sound.once (.indirect j) (.indirect i) trivial owner trivial inside none same
        obtain rfl : j = i := by simpa using pointer
        have apart : k ≠ n - NDIRECT := fun equal => other (by rw [equal])
        rw [Function.update_self, taken_of_ne small (by omega)]
        exact u32_putU32_of_ne (by omega)
      · rw [Function.update_of_ne same, taken_of_ne small (by omega)]

end MapSound

section Indirect

/-! The first use of the indirect block. -/

variable {f : ℕ}

/-- The inodes once `f` is the indirect block of inode `i`. -/
def point (T : ℕ → Dinode) (i f : ℕ) : ℕ → Dinode := Function.update T i ((T i).setAddr NDIRECT f)

theorem point_indirect (T : ℕ → Dinode) (i f j : ℕ) :
    (point T i f j).addrs NDIRECT = if j = i then f else (T j).addrs NDIRECT := by
  unfold point
  by_cases self : j = i
  · subst self
    simp [Dinode.setAddr]
  · rw [Function.update_of_ne self, if_neg self]

theorem point_direct (T : ℕ → Dinode) (i f j : ℕ) {k : ℕ} (direct : k < NDIRECT) :
    (point T i f j).addrs k = (T j).addrs k := by
  unfold point
  by_cases self : j = i
  · subst self
    simp [Dinode.setAddr, Function.update_of_ne (show k ≠ NDIRECT by omega)]
  · rw [Function.update_of_ne self]

/-- The entries of the new indirect block are what the block held, the rest is as before. -/
theorem stored_point {W : ℕ → Block} (sound : MapSound sb T V) (nonzero : f ≠ 0)
    (unreached : ∀ π : Place, π.Valid → π.owner < sb.ninodes → stored T V π ≠ f)
    (same : ∀ b ≠ sb.bmapstart, b ≠ f → W b = V b) (π : Place) (valid : π.Valid)
    (owner : π.owner < sb.ninodes) (other : π ≠ .indirect i) :
    stored (point T i f) W π =
      match π with
      | .entry j k => if j = i then u32 (W f) (4 * k) else stored T V (.entry j k)
      | π => stored T V π := by
  cases π with
  | direct j k => exact point_direct T i f j valid
  | indirect j =>
    have apart : j ≠ i := fun equal => other (by rw [equal])
    exact (point_indirect T i f j).trans (if_neg apart)
  | entry j k =>
    rw [stored_entry, point_indirect]
    dsimp only
    by_cases self : j = i
    · rw [if_pos self, if_pos self, if_neg nonzero]
    · rw [if_neg self, if_neg self, stored_entry]
      by_cases absent : (T j).addrs NDIRECT = 0
      · rw [if_pos absent, if_pos absent]
      · have away : sb.bmapstart < (T j).addrs NDIRECT := sound.indirect_above owner absent
        have apart : (T j).addrs NDIRECT ≠ f := unreached (.indirect j) trivial owner
        rw [if_neg absent, if_neg absent, same _ (by omega) apart]

/-- An indirect block of zeros maps nothing. -/
theorem point_sound {W : ℕ → Block} (sound : MapSound sb T V) (none : (T i).addrs NDIRECT = 0)
    (first : firstFree sb V = some f) (same : ∀ b ≠ sb.bmapstart, b ≠ f → W b = V b)
    (bits : W sb.bmapstart = taken sb V f sb.bmapstart) (zeros : ∀ j < NINDIRECT, u32 (W f) (4 * j) = 0) :
    MapSound sb (point T i f) W ∧
      ∀ π : Place, π.Valid → π.owner < sb.ninodes → π ≠ .indirect i →
        stored (point T i f) W π = stored T V π := by
  obtain ⟨inside, small, -⟩ := firstFree_some first
  obtain ⟨above, unreached⟩ := sound.fresh first
  have others : ∀ π : Place, π.Valid → π.owner < sb.ninodes → π ≠ .indirect i →
      stored (point T i f) W π = stored T V π := by
    intro π valid owner other
    rw [stored_point sound (by omega) unreached same π valid owner other]
    cases π with
    | direct j k => rfl
    | indirect j => rfl
    | entry j k =>
      dsimp only
      by_cases self : j = i
      · rw [if_pos self, zeros k valid, stored_entry, self, if_pos none]
      · rw [if_neg self]
  refine ⟨sound.add (x := f) ⟨above, inside⟩ unreached (fun b => ?_) ?_ others, others⟩
  · rw [bits]
    simp [bit_taken small]
  · exact (point_indirect T i f i).trans (if_pos rfl)

theorem owner_place (i n : ℕ) : (place i n).owner = i := by
  unfold place
  split <;> rfl

theorem MapsRight.of_same {T₁ T' : ℕ → Dinode} {V₁ V' : ℕ → Block} {r : ℕ}
    (right : MapsRight sb T₁ V₁ i n r T' V')
    (same : ∀ π : Place, π.Valid → π.owner < sb.ninodes → (∀ j, π ≠ .indirect j) →
      stored T₁ V₁ π = stored T V π) : MapsRight sb T V i n r T' V' :=
  { right with
    others := by
      intro j inside m small other
      rw [right.others j inside m small other, mapped_eq_stored, mapped_eq_stored]
      exact same _ (place_valid small) (by rwa [owner_place]) fun _ => place_ne_indirect }

/-- The first use of the indirect block when its entry for `n` is zero. -/
theorem first_entry_right {x : ℕ} (sound : MapSound sb T V) (inside : i < sb.ninodes)
    (indirect : ¬ n < NDIRECT) (none : (T i).addrs NDIRECT = 0) (first : firstFree sb V = some f)
    (zeros : ∀ j < NINDIRECT, u32 (V f) (4 * j) = 0)
    (second : firstFree sb (taken sb V f) = some x) :
    MapsRight sb T V i n x (point T i f) (Function.update (taken sb (taken sb V f) x) f
      (putU32 (4 * (n - NDIRECT)) x (taken sb (taken sb V f) x f))) := by
  obtain ⟨-, small, -⟩ := firstFree_some first
  have above := (sound.fresh first).1
  have away : taken sb V f f = V f := taken_of_ne small (by omega)
  obtain ⟨sound₁, others⟩ := point_sound (W := taken sb V f) sound none first
    (fun b other _ => taken_of_ne small other) rfl (by rwa [away])
  have pointer : (point T i f i).addrs NDIRECT = f := (point_indirect T i f i).trans (if_pos rfl)
  have right := sound₁.entry_right inside indirect (by rw [pointer]; omega) second
  rw [pointer] at right
  exact right.of_same fun π valid owner other => others π valid owner (other i)

/-- The first use of the indirect block when its entry for `n` names a block that nothing reaches. -/
theorem first_found_right (sound : MapSound sb T V) (indirect : ¬ n < NDIRECT)
    (none : (T i).addrs NDIRECT = 0) (first : firstFree sb V = some f)
    (zeros : ∀ j < NINDIRECT, j ≠ n - NDIRECT → u32 (V f) (4 * j) = 0)
    (low : sb.bmapstart < u32 (V f) (4 * (n - NDIRECT)))
    (high : u32 (V f) (4 * (n - NDIRECT)) < sb.size)
    (marked : bitSet (V sb.bmapstart) (u32 (V f) (4 * (n - NDIRECT))) = true)
    (unreached : ∀ π : Place, π.Valid → π.owner < sb.ninodes →
      stored T V π ≠ u32 (V f) (4 * (n - NDIRECT))) :
    MapsRight sb T V i n (u32 (V f) (4 * (n - NDIRECT))) (point T i f) (taken sb V f) := by
  obtain ⟨-, small, clear⟩ := firstFree_some first
  obtain ⟨above, fresh⟩ := sound.fresh first
  have away : taken sb V f f = V f := taken_of_ne small (by omega)
  -- the contents with that entry still empty
  have bitmap : Function.update (taken sb V f) f (putU32 (4 * (n - NDIRECT)) 0 (V f)) sb.bmapstart =
      taken sb V f sb.bmapstart := Function.update_of_ne (by omega) _ _
  obtain ⟨sound₁, others⟩ := point_sound
    (W := Function.update (taken sb V f) f (putU32 (4 * (n - NDIRECT)) 0 (V f))) sound none first
    (fun b other apart => by rw [Function.update_of_ne apart, taken_of_ne small other]) bitmap
    (fun j inside => by
      rw [Function.update_self]
      by_cases self : j = n - NDIRECT
      · rw [self, u32_putU32, Nat.zero_mod]
      · rw [u32_putU32_of_ne (by omega), zeros j inside self])
  have entries : ∀ (W : ℕ → Block) k, stored (point T i f) W (.entry i k) = u32 (W f) (4 * k) := by
    intro W k
    rw [stored_entry, point_indirect, if_pos rfl, if_neg (by omega)]
  have slot : place i n = .entry i (n - NDIRECT) := if_neg indirect
  refine MapsRight.of_same (sound₁.add_right ⟨low, high⟩ ?_ (fun b => ?_) ?_ ?_)
    fun π valid owner other => others π valid owner (other i)
  · intro π valid owner
    by_cases self : π = .indirect i
    · subst self
      intro same
      have pointer : f = u32 (V f) (4 * (n - NDIRECT)) :=
        ((point_indirect T i f i).trans (if_pos rfl)).symm.trans same
      rw [← pointer, clear] at marked
      cases marked
    · rw [others π valid owner self]
      exact unreached π valid owner
  · rw [bitmap, bit_taken small]
    constructor
    · exact .inr
    · rintro (rfl | set)
      · simp [marked]
      · exact set
  · rw [slot, entries, away]
  · intro π valid owner other
    rw [slot] at other
    cases π with
    | direct j k => rfl
    | indirect j => rfl
    | entry j k =>
      by_cases self : j = i
      · subst self
        have apart : k ≠ n - NDIRECT := fun equal => other (by rw [equal])
        rw [entries, entries, Function.update_self, away, u32_putU32_of_ne (by omega)]
      · rw [stored_entry, stored_entry, point_indirect, if_neg self]
        by_cases absent : (T j).addrs NDIRECT = 0
        · rw [if_pos absent, if_pos absent]
        · have apart : (T j).addrs NDIRECT ≠ f := fresh (.indirect j) trivial owner
          rw [if_neg absent, if_neg absent, Function.update_of_ne apart]

/-- What is right shows no entry of the new indirect block but that of `n`. -/
theorem zeros_of_right {r : ℕ} {V' : ℕ → Block} (inside : i < sb.ninodes)
    (none : (T i).addrs NDIRECT = 0) (nonzero : f ≠ 0)
    (right : MapsRight sb T V i n r (point T i f) V') {j : ℕ} (small : j < NINDIRECT)
    (other : j ≠ n - NDIRECT) : u32 (V' f) (4 * j) = 0 := by
  have same := right.others i inside (NDIRECT + j) (by simp only [MAXFILE]; omega) fun pair => by
    simp only [Prod.mk.injEq, true_and] at pair
    omega
  have beyond : ¬ NDIRECT + j < NDIRECT := by omega
  simp only [mapped, beyond, ↓reduceIte, point_indirect, nonzero, none, Nat.add_sub_cancel_left] at same
  exact same

/-- An entry that `bmap` found in the new indirect block is right only if it names a marked block
that nothing reaches. -/
theorem found_of_right (sound : MapSound sb T V) (inside : i < sb.ninodes) (limit : n < MAXFILE)
    (indirect : ¬ n < NDIRECT) (none : (T i).addrs NDIRECT = 0) (first : firstFree sb V = some f)
    (found : u32 (V f) (4 * (n - NDIRECT)) ≠ 0)
    (right : MapsRight sb T V i n (u32 (V f) (4 * (n - NDIRECT))) (point T i f) (taken sb V f)) :
    sb.bmapstart < u32 (V f) (4 * (n - NDIRECT)) ∧ u32 (V f) (4 * (n - NDIRECT)) < sb.size ∧
      bitSet (V sb.bmapstart) (u32 (V f) (4 * (n - NDIRECT))) = true ∧
      ∀ π : Place, π.Valid → π.owner < sb.ninodes → stored T V π ≠ u32 (V f) (4 * (n - NDIRECT)) := by
  obtain ⟨-, small, clear⟩ := firstFree_some first
  obtain ⟨above, fresh⟩ := sound.fresh first
  have away : taken sb V f f = V f := taken_of_ne small (by omega)
  have valid : (Place.entry i (n - NDIRECT)).Valid := by
    simp only [Place.Valid, MAXFILE] at *
    omega
  have slot : place i n = .entry i (n - NDIRECT) := if_neg indirect
  have entry : stored (point T i f) (taken sb V f) (.entry i (n - NDIRECT)) =
      u32 (V f) (4 * (n - NDIRECT)) := by
    rw [stored_entry, point_indirect, if_pos rfl, if_neg (by omega), away]
  have pointer : stored (point T i f) (taken sb V f) (.indirect i) = f :=
    (point_indirect T i f i).trans (if_pos rfl)
  obtain ⟨low, high, set⟩ := right.sound.marked _ valid inside (entry ▸ found)
  rw [entry] at low high set
  refine ⟨low, high, ?_, ?_⟩
  · rw [bit_taken small] at set
    by_cases self : u32 (V f) (4 * (n - NDIRECT)) = f
    · have twice := right.sound.once _ (.indirect i) valid inside trivial inside (entry ▸ found)
        (entry.trans (self.trans pointer.symm))
      cases twice
    · simpa [self] using set
  · intro π valid' owner same
    have other : π ≠ .indirect i := by
      rintro rfl
      exact found (same.symm.trans none)
    have kept : stored (point T i f) (taken sb V f) π = stored T V π := by
      rw [stored_point sound (by omega) fresh (fun b apart _ => taken_of_ne small apart) π valid' owner other]
      cases π with
      | direct j k => rfl
      | indirect j => rfl
      | entry j k =>
        by_cases self : j = i
        · subst self
          rw [stored_entry, if_pos none] at same
          exact absurd same.symm found
        · exact if_neg self
    have only := right.only π valid' owner (kept.trans same)
    rw [only, slot, stored_entry, if_pos none] at same
    exact found same.symm

end Indirect

/-- Whatever the free blocks hold, the call is right exactly under `MapsWhen`. -/
theorem mapBlock_right_iff {r : ℕ} {d' : Dinode} {V' : ℕ → Block} (sound : MapSound sb T V)
    (inside : i < sb.ninodes) (limit : n < MAXFILE) (done : mapBlock sb V (T i) n = some (r, d', V')) :
    MapsRight sb T V i n r (Function.update T i d') V' ↔ MapsWhen sb T V i n := by
  have same : Function.update T i (T i) = T := Function.update_eq_self i T
  unfold mapBlock at done
  by_cases direct : n < NDIRECT
  · refine iff_of_true ?_ (.inl direct)
    have here : mapped V (T i) n = (T i).addrs n := if_pos direct
    rw [if_pos direct] at done
    by_cases none : (T i).addrs n = 0
    · cases first : firstFree sb V with
      | none => simp [none, first] at done
      | some x =>
        simp only [none, first, ↓reduceIte, Option.pure_def, Option.bind_eq_bind, Option.bind_some,
          Option.some.injEq, Prod.mk.injEq] at done
        obtain ⟨rfl, rfl, rfl⟩ := done
        exact sound.direct_right first direct
    · rw [if_neg none] at done
      obtain ⟨rfl, rfl, rfl⟩ : (T i).addrs n = r ∧ T i = d' ∧ V = V' := by simpa using done
      rw [same, ← here]
      exact sound.mapped_right inside limit (here ▸ none)
  rw [if_neg direct] at done
  by_cases none : (T i).addrs NDIRECT = 0
  swap
  · refine iff_of_true ?_ (.inr (.inl none))
    have here : mapped V (T i) n = u32 (V ((T i).addrs NDIRECT)) (4 * (n - NDIRECT)) := by
      unfold mapped
      rw [if_neg direct, if_neg none]
    simp only [none, ↓reduceIte, Option.pure_def, Option.bind_eq_bind, Option.bind_some] at done
    by_cases empty : u32 (V ((T i).addrs NDIRECT)) (4 * (n - NDIRECT)) = 0
    · cases first : firstFree sb V with
      | none => simp [empty, first] at done
      | some x =>
        simp only [empty, first, ↓reduceIte, Option.bind_some, Option.some.injEq, Prod.mk.injEq] at done
        obtain ⟨rfl, rfl, rfl⟩ := done
        rw [same]
        exact sound.entry_right inside direct none first
    · rw [if_neg empty] at done
      simp only [Option.some.injEq, Prod.mk.injEq] at done
      obtain ⟨rfl, rfl, rfl⟩ := done
      rw [same, ← here]
      exact sound.mapped_right inside limit (here ▸ empty)
  cases first : firstFree sb V with
  | none => simp [none, first] at done
  | some f =>
    obtain ⟨-, small, -⟩ := firstFree_some first
    have above := (sound.fresh first).1
    have away : taken sb V f f = V f := taken_of_ne small (by omega)
    have pointer : ((T i).setAddr NDIRECT f).addrs NDIRECT = f := by simp [Dinode.setAddr]
    have condition : MapsWhen sb T V i n ↔ ServesAt sb T V n f := by
      unfold MapsWhen
      rw [or_iff_right direct, or_iff_right (not_not.mpr none), first]
      simp only [Option.some.injEq, forall_eq']
    rw [condition]
    simp only [none, first, ↓reduceIte, Option.pure_def, Option.bind_eq_bind, Option.bind_some, pointer,
      away] at done
    by_cases empty : u32 (V f) (4 * (n - NDIRECT)) = 0
    · cases second : firstFree sb (taken sb V f) with
      | none => simp [empty, second] at done
      | some x =>
        simp only [empty, second, ↓reduceIte, Option.bind_some, Option.some.injEq, Prod.mk.injEq] at done
        obtain ⟨rfl, rfl, rfl⟩ := done
        obtain ⟨-, small', -⟩ := firstFree_some second
        constructor
        · refine fun right => ⟨fun j inside' other => ?_, .inl empty⟩
          have zero := zeros_of_right inside none (by omega) right inside' other
          rwa [Function.update_self, u32_putU32_of_ne (by omega), taken_of_ne small' (by omega), away]
            at zero
        · rintro ⟨zeros, -⟩
          refine first_entry_right sound inside direct none first (fun j inside' => ?_) second
          by_cases self : j = n - NDIRECT
          · rw [self, empty]
          · exact zeros j inside' self
    · rw [if_neg empty] at done
      simp only [Option.some.injEq, Prod.mk.injEq] at done
      obtain ⟨rfl, rfl, rfl⟩ := done
      constructor
      · refine fun right => ⟨fun j inside' other => ?_, .inr ?_⟩
        · have zero := zeros_of_right inside none (by omega) right inside' other
          rwa [away] at zero
        · exact found_of_right sound inside limit direct none first empty right
      · rintro ⟨zeros, zero | ⟨low, high, marked, unreached⟩⟩
        · exact absurd zero empty
        · exact first_found_right sound direct none first zeros low high marked unreached

/-- The blocks below the bitmap stay as they are. -/
theorem mapBlock_below {r : ℕ} {d' : Dinode} {V' : ℕ → Block} (sound : MapSound sb T V)
    (inside : i < sb.ninodes) (done : mapBlock sb V (T i) n = some (r, d', V')) {b : ℕ}
    (below : b < sb.bmapstart) : V' b = V b := by
  have kept : ∀ {W : ℕ → Block} {x : ℕ}, firstFree sb W = some x → taken sb W x b = W b := fun first =>
    taken_of_ne (firstFree_some first).2.1 (by omega)
  unfold mapBlock at done
  by_cases direct : n < NDIRECT
  · by_cases none : (T i).addrs n = 0
    · cases first : firstFree sb V with
      | none => simp [direct, none, first] at done
      | some x =>
        obtain ⟨-, -, rfl⟩ : x = r ∧ (T i).setAddr n x = d' ∧ taken sb V x = V' := by
          simpa [direct, none, first] using done
        exact kept first
    · obtain ⟨-, -, rfl⟩ : (T i).addrs n = r ∧ T i = d' ∧ V = V' := by
        simpa [direct, none] using done
      rfl
  -- the entry goes into the indirect block, which lies above the bitmap
  have last : ∀ {W : ℕ → Block} {a : ℕ} {d : Dinode}, sb.bmapstart < a → W b = V b →
      (if u32 (W a) (4 * (n - NDIRECT)) = 0 then (firstFree sb W).bind fun x => some (x, d,
          Function.update (taken sb W x) a (putU32 (4 * (n - NDIRECT)) x (taken sb W x a)))
        else some (u32 (W a) (4 * (n - NDIRECT)), d, W)) = some (r, d', V') → V' b = V b := by
    intro W a d above same done
    by_cases empty : u32 (W a) (4 * (n - NDIRECT)) = 0
    · cases first : firstFree sb W with
      | none => simp [empty, first] at done
      | some x =>
        simp only [empty, first, ↓reduceIte, Option.bind_some, Option.some.injEq, Prod.mk.injEq] at done
        obtain ⟨-, -, rfl⟩ := done
        rw [Function.update_of_ne (by omega), kept first, same]
    · simp only [empty, ↓reduceIte, Option.some.injEq, Prod.mk.injEq] at done
      obtain ⟨-, -, rfl⟩ := done
      exact same
  by_cases none : (T i).addrs NDIRECT = 0
  · cases first : firstFree sb V with
    | none => simp [direct, none, first] at done
    | some f =>
      have pointer : ((T i).setAddr NDIRECT f).addrs NDIRECT = f := by simp [Dinode.setAddr]
      simp only [direct, none, first, ↓reduceIte, Option.pure_def, Option.bind_eq_bind, Option.bind_some,
        pointer] at done
      exact last (sound.fresh first).1 (kept first) done
  · simp only [direct, none, ↓reduceIte, Option.pure_def, Option.bind_eq_bind, Option.bind_some] at done
    exact last (sound.indirect_above inside none) rfl done

/-- Only block addresses of the inode change. -/
theorem mapBlock_size {r : ℕ} {d' : Dinode} {V' : ℕ → Block}
    (done : mapBlock sb V d n = some (r, d', V')) : d'.size = d.size := by
  have kept : ∀ k x, (d.setAddr k x).size = d.size := fun _ _ => rfl
  unfold mapBlock at done
  by_cases direct : n < NDIRECT
  · by_cases none : d.addrs n = 0
    · cases first : firstFree sb V with
      | none => simp [direct, none, first] at done
      | some x =>
        obtain ⟨-, rfl, -⟩ : x = r ∧ d.setAddr n x = d' ∧ taken sb V x = V' := by
          simpa [direct, none, first] using done
        exact kept n x
    · obtain ⟨-, rfl, -⟩ : d.addrs n = r ∧ d = d' ∧ V = V' := by simpa [direct, none] using done
      rfl
  have last : ∀ {W : ℕ → Block} {e : Dinode}, e.size = d.size →
      (if u32 (W (e.addrs NDIRECT)) (4 * (n - NDIRECT)) = 0 then (firstFree sb W).bind fun x =>
          some (x, e, Function.update (taken sb W x) (e.addrs NDIRECT)
            (putU32 (4 * (n - NDIRECT)) x (taken sb W x (e.addrs NDIRECT))))
        else some (u32 (W (e.addrs NDIRECT)) (4 * (n - NDIRECT)), e, W)) = some (r, d', V') →
      d'.size = d.size := by
    intro W e same done
    split at done
    · cases first : firstFree sb W with
      | none => simp [first] at done
      | some x =>
        simp only [first, Option.bind_some, Option.some.injEq, Prod.mk.injEq] at done
        rw [← done.2.1, same]
    · simp only [Option.some.injEq, Prod.mk.injEq] at done
      rw [← done.2.1, same]
  by_cases none : d.addrs NDIRECT = 0
  · cases first : firstFree sb V with
    | none => simp [direct, none, first] at done
    | some f =>
      simp only [direct, none, first, ↓reduceIte, Option.pure_def, Option.bind_eq_bind,
        Option.bind_some] at done
      exact last (kept NDIRECT f) done
  · simp only [direct, none, ↓reduceIte, Option.pure_def, Option.bind_eq_bind, Option.bind_some] at done
    exact last rfl done

/-- A direct block costs a bit of the bitmap at most. -/
theorem mapBlock_direct {r : ℕ} {d' : Dinode} {V' : ℕ → Block} (direct : n < NDIRECT)
    (done : mapBlock sb V d n = some (r, d', V')) {b : ℕ} (other : b ≠ sb.bmapstart) : V' b = V b := by
  unfold mapBlock at done
  by_cases none : d.addrs n = 0
  · cases first : firstFree sb V with
    | none => simp [direct, none, first] at done
    | some x =>
      obtain ⟨-, -, rfl⟩ : x = r ∧ d.setAddr n x = d' ∧ taken sb V x = V' := by
        simpa [direct, none, first] using done
      exact taken_of_ne (firstFree_some first).2.1 other
  · obtain ⟨-, -, rfl⟩ : d.addrs n = r ∧ d = d' ∧ V = V' := by simpa [direct, none] using done
    rfl

end HaloOS
