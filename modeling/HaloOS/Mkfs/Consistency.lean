import HaloOS.Mkfs.Image

/-! The finished image is consistent: its block numbers, its bitmap and the blocks that
were never handed out. The only holes it can have are in the root directory. -/

namespace HaloOS.Mkfs

open Lib

variable {table : ℕ → Dinode} {places : List Place} {s : State} {π : Place} {i : ℕ}
  {files : List Input}

/-- Inode `i` as it is on the image. -/
def Image.inode (image : Image) (i : ℕ) : Dinode :=
  Dinode.read (image.data (IBLOCK i sb)) (i % IPB)

/-- The block number that a place of the image holds. -/
def Image.stored (image : Image) (π : Place) : ℕ := Mkfs.stored image.inode image.data π

/-- The places of the inodes that the inode blocks have room for. -/
structure Place.OnImage (π : Place) : Prop where
  valid : π.Valid
  owner : π.owner < ninodeblocks * IPB

/-- The inode blocks hold every inode that the superblock counts. -/
theorem slots_of_few (few : files.length ≤ NINODES - 2) : files.length + 2 ≤ ninodeblocks * IPB := by
  have count : files.length ≤ 198 := few
  have total : ninodeblocks * IPB = 208 := rfl
  omega

theorem run_returned (exits : run files = .ok s) : ∃ u, main files start = .ok (u, s) := by
  have stay : ∀ r : Except Abort (Unit × State), r.map Prod.snd = .ok s → ∃ u, r = .ok (u, s) := by
    rintro (e | ⟨u, t⟩) same
    · simp [Except.map] at same
    · exact ⟨u, by simpa [Except.map] using same⟩
  exact stay _ exits

theorem run_built (few : files.length + 2 ≤ ninodeblocks * IPB) (exits : run files = .ok s) :
    ∃ table places, Built files s table places := by
  obtain ⟨u, returned⟩ := run_returned exits
  exact main_ok few returned

/-- `mkfs` exits with 0 when its arguments can be opened and fit on the image. -/
theorem run_exits (few : files.length + 2 ≤ ninodeblocks * IPB)
    (room : Room (lengths (contentsOf files))) (opened : ∀ file ∈ files, file.reads ≠ none) : ∃ s, run files = .ok s := by
  have stay : ∀ r : Except Abort (Unit × State), (∀ e, r ≠ .error e) →
      ∃ s, r.map Prod.snd = .ok s := by
    rintro (e | ⟨u, t⟩) never
    · exact absurd rfl (never e)
    · exact ⟨t, rfl⟩
  refine stay _ fun e stopped => ?_
  rcases main_error few stopped with full | ⟨file, member, missing⟩
  · exact full room
  · exact opened file member missing

namespace Built

theorem inode_same (built : Built files s table places) (inside : i < ninodeblocks * IPB) :
    (s.image.inode i).Same (table i) :=
  Dinode.read_bytes (built.fits i) (built.inodes i inside)

theorem stored_eq (built : Built files s table places) (here : π.OnImage) :
    s.image.stored π = number nmeta places π := by
  rw [← built.holds.blocks.addrs π here.valid]
  cases π with
  | direct i k => exact (built.inode_same here.owner).addrs k (le_of_lt here.valid)
  | indirect i => exact (built.inode_same here.owner).addrs NDIRECT (le_refl _)
  | entry i j =>
    have pointer : (s.image.inode i).addrs NDIRECT = (table i).addrs NDIRECT :=
      (built.inode_same here.owner).addrs NDIRECT (le_refl _)
    simp only [Image.stored, stored]
    rw [pointer]

theorem stored_ne_zero (built : Built files s table places) (here : π.OnImage) :
    s.image.stored π ≠ 0 ↔ Placed (lengths (contentsOf files)) π := by
  rw [built.stored_eq here, Ne, number_eq_zero nmeta_pos, not_not, built.holds.full]

end Built

/-- The bit of block `b` in a bitmap with the first `used` bits set. -/
theorem bitSet_bitmap (used b : ℕ) : bitSet (bitmap used) b = decide (b < used) := by
  unfold bitmap
  induction used with
  | zero => simp [bitSet_eq]
  | succ used ih =>
    rw [List.range_succ, List.foldl_append, List.foldl_cons, List.foldl_nil, bitSet_setBit, ih]
    by_cases last : b = used
    · simp [last]
    · have same : b < used ↔ b < used + 1 := by omega
      simp [last, same]

/-- What a consistent image is. -/
structure Consistent (s : State) : Prop where
  size : s.image.size = FSSIZE
  range : ∀ π : Place, π.OnImage → s.image.stored π ≠ 0 →
    nmeta ≤ s.image.stored π ∧ s.image.stored π < s.freeblock ∧ s.image.stored π < FSSIZE
  once : ∀ π π' : Place, π.OnImage → π'.OnImage → s.image.stored π ≠ 0 →
    s.image.stored π' = s.image.stored π → π' = π
  bitmap : ∀ b < BSIZE * 8, bitSet (s.image.data sb.bmapstart) b = true ↔ b < s.freeblock
  zero : ∀ b, s.freeblock ≤ b → s.image.data b = fun _ => 0
  boot : s.image.data 0 = fun _ => 0
  super : s.image.data 1 = sbByte sb
  log : ∀ b, 2 ≤ b → b < sb.inodestart → s.image.data b = fun _ => 0
  filed : ∀ b ∈ s.filed, nmeta ≤ b

/-- Whatever the files, the image that `mkfs` leaves is consistent. -/
theorem image_consistent (files : List Input) (few : files.length ≤ NINODES - 2) (s : State)
    (exits : run files = .ok s) : Consistent s := by
  obtain ⟨table, places, built⟩ := run_built (slots_of_few few) exits
  have used := built.holds.freeblock
  have member : ∀ π : Place, π.OnImage → s.image.stored π ≠ 0 → π ∈ places :=
    fun π here some => (built.holds.full π).mpr ((built.stored_ne_zero here).mp some)
  refine ⟨built.holds.size, ?_, ?_, ?_, ?_, built.boot, built.super, built.log, built.filed⟩
  · intro π here some
    have inside := member π here some
    have low : nmeta ≤ number nmeta places π := le_number inside
    have high : number nmeta places π < nmeta + places.length := number_lt inside
    have limit := built.few
    rw [built.stored_eq here, used]
    exact ⟨low, high, by omega⟩
  · intro π π' here here' some same
    have inside' := member π' here' (same ▸ some)
    rw [built.stored_eq here, built.stored_eq here'] at same
    exact number_inj inside' (member π here some) same
  · intro b _
    rw [built.bitmap, bitSet_bitmap, decide_eq_true_iff]
  · intro b beyond
    exact built.holds.blocks.zero b (used ▸ beyond)

section Small

/-- Files of at most one block each always fit. -/
theorem room_of_small (few : files.length + 2 ≤ ninodeblocks * IPB)
    (small : ∀ file ∈ files, file.content.length ≤ BSIZE) : Room (lengths (contentsOf files)) := by
  have count : files.length ≤ 206 := Nat.le_of_add_le_add_right few
  have root : lengths (contentsOf files) ROOTINO ≤ 4 * BSIZE := by
    simp only [lengths, contentsOf, ↓reduceIte, length_rootBytes, BSIZE]
    omega
  have others : ∀ i ≠ ROOTINO, lengths (contentsOf files) i ≤ BSIZE := by
    intro i other
    simp only [lengths, contentsOf, other, ↓reduceIte]
    split
    · cases found : files[i - 2]? with
      | none => simp
      | some file => exact small file (List.mem_of_getElem? found)
    · simp
  have unused : ∀ i, 208 ≤ i → lengths (contentsOf files) i = 0 := by
    intro i beyond
    have other : i ≠ ROOTINO := by simp only [ROOTINO]; omega
    simp only [lengths, contentsOf, other, ↓reduceIte]
    rw [if_pos (by omega), List.getElem?_eq_none (by omega)]
    rfl
  constructor
  · intro i
    simp only [MAXFILE, NDIRECT, NINDIRECT, BSIZE] at *
    by_cases same : i = ROOTINO
    · subst same
      omega
    · have bound := others i same
      omega
  · intro l nodup placed
    -- the root directory has at most four blocks, and no other inode more than one
    have within : l ⊆ (List.range 4).map (.direct ROOTINO) ++
        (List.range 208).map (.direct · 0) := by
      intro π member
      have used := placed π member
      have extent : ∀ i, lengths (contentsOf files) i ≤ 4 * BSIZE := by
        intro i
        by_cases same : i = ROOTINO
        · exact same ▸ root
        · have bound := others i same
          omega
      cases π with
      | direct i k =>
        obtain ⟨-, inside⟩ := used
        have bound := extent i
        by_cases same : i = ROOTINO
        · subst same
          refine List.mem_append_left _ (List.mem_map.mpr ⟨k, List.mem_range.mpr ?_, rfl⟩)
          simp only [BSIZE] at *
          omega
        · have first : k = 0 := by
            have limit := others i same
            simp only [BSIZE] at *
            omega
          subst first
          refine List.mem_append_right _ (List.mem_map.mpr ⟨i, List.mem_range.mpr ?_, rfl⟩)
          by_contra beyond
          have none := unused i (by omega)
          omega
      | indirect i =>
        have bound := extent i
        simp only [Placed, NDIRECT, BSIZE] at *
        omega
      | entry i j =>
        have bound := extent i
        simp only [Placed, NDIRECT, BSIZE] at *
        omega
    have length := (List.subperm_of_subset nodup within).length_le
    have total : nmeta = 46 := rfl
    simp only [List.length_append, List.length_map, List.length_range, FSSIZE] at *
    omega

theorem run_small (files : List Input) (few : files.length + 2 ≤ ninodeblocks * IPB)
    (small : ∀ file ∈ files, file.content.length ≤ BSIZE)
    (opened : ∀ file ∈ files, file.reads ≠ none) : ∃ s, run files = .ok s :=
  run_exits few (room_of_small few small) opened

/-- `src/user/_hi`, a file of three bytes. -/
def hi : Input where
  arg := userDir ++ [0x5f, 0x68, 0x69]
  reads := some [[1, 2, 3]]
  cstring := by decide
  sized := by decide

end Small

/-- The image with one file. -/
theorem image_consistent_hi : ∃ s, run [hi] = .ok s ∧ Consistent s := by
  obtain ⟨s, exits⟩ := run_small [hi] (by decide) (by decide) (by decide)
  exact ⟨s, exits, image_consistent [hi] (by decide) s exits⟩

/-- Every block below the size of an inode has a number. -/
def NoHoles (s : State) : Prop :=
  ∀ i < ninodeblocks * IPB, ∀ n, n < ((s.image.inode i).size + BSIZE - 1) / BSIZE →
    s.image.stored (place i n) ≠ 0

theorem placed_place {extent : ℕ → ℕ} {n : ℕ} (small : n < MAXFILE) :
    Placed extent (place i n) ↔ n * BSIZE < extent i := by
  unfold place
  by_cases direct : n < NDIRECT
  · rw [if_pos direct]
    exact and_iff_right direct
  · have index : n - NDIRECT < NINDIRECT := by
      simp only [MAXFILE] at small
      omega
    rw [if_neg direct, Placed, Nat.add_sub_cancel' (by omega)]
    exact and_iff_right index

namespace Built

theorem place_ne_zero (built : Built files s table places) (inside : i < ninodeblocks * IPB) {n : ℕ}
    (small : n < MAXFILE) :
    s.image.stored (place i n) ≠ 0 ↔ n * BSIZE < (contentsOf files i).length := by
  have owner : (place i n).owner = i := by
    unfold place
    split <;> rfl
  rw [built.stored_ne_zero ⟨place_valid small, owner.symm ▸ inside⟩, placed_place small]
  rfl

/-- Any inode but the root directory has a block for every byte it holds. -/
theorem no_holes_of_ne (built : Built files s table places) (inside : i < ninodeblocks * IPB)
    (other : i ≠ ROOTINO) {n : ℕ} (below : n < ((s.image.inode i).size + BSIZE - 1) / BSIZE) :
    s.image.stored (place i n) ≠ 0 := by
  have limit := built.small i
  rw [(built.inode_same inside).size, built.sizes i other] at below
  have small : n < MAXFILE := by
    simp only [BSIZE] at *
    omega
  rw [built.place_ne_zero inside small]
  simp only [BSIZE] at *
  omega

/-- The rounded size of the root directory exceeds its entries by less than a block, or by
a whole one. -/
theorem no_holes_root (built : Built files s table places) (few : files.length ≤ NINODES - 2) :
    (∀ n < ((s.image.inode ROOTINO).size + BSIZE - 1) / BSIZE,
      s.image.stored (place ROOTINO n) ≠ 0) ↔ (files.length + 2) % 64 ≠ 0 := by
  have inside : ROOTINO < ninodeblocks * IPB := by decide
  have length : (contentsOf files ROOTINO).length = 16 * (files.length + 2) := by
    rw [contentsOf, if_pos rfl, length_rootBytes]
  have size : (s.image.inode ROOTINO).size = (16 * (files.length + 2) / BSIZE + 1) * BSIZE := by
    rw [(built.inode_same inside).size, built.root, length_rootBytes]
  have count : files.length ≤ 198 := few
  have blocks : ((s.image.inode ROOTINO).size + BSIZE - 1) / BSIZE =
      16 * (files.length + 2) / BSIZE + 1 := by
    rw [size]
    simp only [BSIZE]
    omega
  rw [blocks]
  constructor
  · intro full even
    have small : 16 * (files.length + 2) / BSIZE < MAXFILE := by
      simp only [BSIZE, MAXFILE, NDIRECT, NINDIRECT]
      omega
    have last := full (16 * (files.length + 2) / BSIZE) (Nat.lt_succ_self _)
    rw [built.place_ne_zero inside small, length] at last
    simp only [BSIZE] at last
    omega
  · intro odd n below
    have small : n < MAXFILE := by
      simp only [BSIZE, MAXFILE, NDIRECT, NINDIRECT] at *
      omega
    rw [built.place_ne_zero inside small, length]
    simp only [BSIZE] at *
    omega

end Built

/-- The image has no holes unless the entries of the root directory fill its blocks. -/
theorem no_holes_iff (files : List Input) (few : files.length ≤ NINODES - 2) (s : State)
    (exits : run files = .ok s) : NoHoles s ↔ (files.length + 2) % 64 ≠ 0 := by
  obtain ⟨table, places, built⟩ := run_built (slots_of_few few) exits
  rw [← built.no_holes_root few]
  constructor
  · intro full n below
    exact full ROOTINO (by decide) n below
  · intro root i inside n below
    by_cases same : i = ROOTINO
    · subst same
      exact root n below
    · exact built.no_holes_of_ne inside same below

theorem no_holes_hi : ∃ s, run [hi] = .ok s ∧ NoHoles s := by
  obtain ⟨s, exits⟩ := run_small [hi] (by decide) (by decide) (by decide)
  exact ⟨s, exits, (no_holes_iff [hi] (by decide) s exits).mpr (by decide)⟩

/-- An empty file with a name of one letter. -/
def emptyFile (k : Fin 62) : Input where
  arg := [BitVec.ofNat 8 (0x40 + k)]
  reads := some []
  cstring := by
    intro b member zero
    have value : b = BitVec.ofNat 8 (0x40 + k) := List.mem_singleton.mp member
    have number := congrArg BitVec.toNat (value.symm.trans zero)
    have small := k.isLt
    simp only [BitVec.toNat_ofNat, BitVec.ofNat_eq_ofNat] at number
    omega
  sized := by simp

/-- Sixty-two empty files leave a hole at the end of the root directory. -/
theorem root_hole : ∃ s, run ((List.finRange 62).map emptyFile) = .ok s ∧
    (s.image.inode ROOTINO).size = 2 * BSIZE ∧ s.image.stored (place ROOTINO 1) = 0 ∧
    ¬ NoHoles s := by
  have few : ((List.finRange 62).map emptyFile).length + 2 ≤ ninodeblocks * IPB := by
    rw [List.length_map, List.length_finRange]
    decide
  have content : ∀ file ∈ (List.finRange 62).map emptyFile, file.content = [] := by
    intro file member
    obtain ⟨k, -, rfl⟩ := List.mem_map.mp member
    rfl
  have opened : ∀ file ∈ (List.finRange 62).map emptyFile, file.reads ≠ none := by
    intro file member
    obtain ⟨k, -, rfl⟩ := List.mem_map.mp member
    simp [emptyFile]
  obtain ⟨s, exits⟩ := run_small _ few (fun file member => by simp [content file member]) opened
  obtain ⟨table, places, built⟩ := run_built few exits
  have inside : ROOTINO < ninodeblocks * IPB := by decide
  have count : 16 * (((List.finRange 62).map emptyFile).length + 2) = BSIZE := by
    rw [List.length_map, List.length_finRange]
    rfl
  have size : (s.image.inode ROOTINO).size = 2 * BSIZE := by
    rw [(built.inode_same inside).size, built.root, length_rootBytes, count]
    rfl
  have hole : s.image.stored (place ROOTINO 1) = 0 := by
    by_contra some
    have below := (built.place_ne_zero inside (n := 1) (by decide)).mp some
    rw [contentsOf, if_pos rfl, length_rootBytes, count, Nat.one_mul] at below
    exact lt_irrefl _ below
  refine ⟨s, exits, size, hole, fun full => full ROOTINO inside 1 ?_ hole⟩
  rw [size]
  decide

end HaloOS.Mkfs
