import HaloOS.Fs.Resting
import HaloOS.Fs.InodeCache

/-! The directory scan of `inodeByName`. It compares names and nothing else, so it stops at a free
entry that bears the name. -/

namespace HaloOS

open Lib

variable {V : ℕ → Block} {B : Set ℕ} {s : Fs} {me dev : ℕ} {i : Fin INODES} {name : List Byte}
  {d : Dinode} {E : Stop → Prop}

section Names

/-- A string and the name of an entry are equal on the first `DIRSIZ` characters: they agree up to
the end of the string. -/
def SameName (name de : List Byte) : Prop :=
  ∀ k < DIRSIZ, (∀ j < k, cstr name j ≠ 0) → cstr name k = direntName de k

instance (name de : List Byte) : Decidable (SameName name de) :=
  inferInstanceAs (Decidable (∀ k < DIRSIZ, (∀ j < k, cstr name j ≠ 0) → cstr name k = direntName de k))

theorem strncmpZero_agree (p q : ℕ → Byte) (n k : ℕ) :
    strncmpZero p q n k = true ↔ ∀ j < n, (∀ o < j, p (k + o) ≠ 0) → p (k + j) = q (k + j) := by
  induction n generalizing k with
  | zero => simp [strncmpZero]
  | succ n ih =>
    unfold strncmpZero
    by_cases goes : p k ≠ 0 ∧ p k = q k
    · rw [if_pos goes, ih]
      constructor
      · intro rest j small earlier
        cases j with
        | zero => exact goes.2
        | succ j =>
          have next := rest j (by omega) fun o less => by
            have some := earlier (o + 1) (by omega)
            rwa [show k + (o + 1) = k + 1 + o by omega] at some
          rwa [show k + 1 + j = k + (j + 1) by omega] at next
      · intro all j small earlier
        have next := all (j + 1) (by omega) fun o less => by
          cases o with
          | zero => exact goes.1
          | succ o =>
            have some := earlier o (by omega)
            rwa [show k + 1 + o = k + (o + 1) by omega] at some
        rwa [show k + (j + 1) = k + 1 + j by omega] at next
    · rw [if_neg goes, beq_iff_eq]
      constructor
      · intro same j small earlier
        cases j with
        | zero => exact same
        | succ j =>
          have zero : p k = 0 := not_not.mp fun some => goes ⟨some, same⟩
          exact absurd zero (earlier 0 (by omega))
      · intro all
        exact all 0 (by omega) fun o less => absurd less (Nat.not_lt_zero o)

theorem strncmpZero_sameName (name de : List Byte) :
    strncmpZero (cstr name) (direntName de) DIRSIZ 0 = true ↔ SameName name de := by
  rw [strncmpZero_agree]
  unfold SameName
  simp only [Nat.zero_add]

end Names

section Directory

/-- The 16 bytes of entry `j`. -/
def dirEntry (V : ℕ → Block) (d : Dinode) (j : ℕ) : List Byte :=
  (List.range 16).map fun k => V (mapped V d (16 * j / BSIZE)) (16 * j % BSIZE + k)

def dirEntries (V : ℕ → Block) (d : Dinode) : List (List Byte) := (List.range (d.size / 16)).map (dirEntry V d)

/-- An inode with all its blocks there. -/
structure BlocksThere (V : ℕ → Block) (d : Dinode) : Prop where
  bounded : d.size ≤ MAXFILE * BSIZE
  present : ∀ n, n * BSIZE < d.size → mapped V d n ≠ 0

/-- A directory of whole entries, with all its blocks there. -/
structure Directory (V : ℕ → Block) (d : Dinode) : Prop extends BlocksThere V d where
  whole : d.size % 16 = 0

theorem mapped_congr {d' : Dinode} (V : ℕ → Block) (same : d.Same d') (n : ℕ) : mapped V d n = mapped V d' n := by
  unfold mapped
  rw [same.addrs NDIRECT (le_refl _)]
  by_cases direct : n < NDIRECT
  · rw [if_pos direct, if_pos direct, same.addrs n direct.le]
  · rw [if_neg direct, if_neg direct]

theorem dirEntries_congr {d' : Dinode} (V : ℕ → Block) (same : d.Same d') : dirEntries V d = dirEntries V d' := by
  unfold dirEntries dirEntry
  simp only [mapped_congr V same, same.size]

theorem Directory.congr {d' : Dinode} (dir : Directory V d) (same : d.Same d') : Directory V d' := by
  refine ⟨⟨same.size ▸ dir.bounded, fun n below => ?_⟩, same.size ▸ dir.whole⟩
  rw [← mapped_congr V same]
  exact dir.present n (same.size ▸ below)

/-- The blocks of an inode: the indirect one if it is needed, and those with data. -/
def fileBlocks (V : ℕ → Block) (d : Dinode) : Set ℕ :=
  {b | (NDIRECT * BSIZE < d.size ∧ b = d.addrs NDIRECT) ∨ ∃ n, n * BSIZE < d.size ∧ b = mapped V d n}

/-- The first entry that bears the name. -/
def firstNamed (name : List Byte) (entries : List (List Byte)) : Option (List Byte) :=
  entries.find? fun de => decide (SameName name de)

/-- The number in the first entry that is not free and bears the name. -/
def liveInum (name : List Byte) (entries : List (List Byte)) : Option ℕ :=
  (entries.find? fun de => decide (direntInum de ≠ 0 ∧ SameName name de)).map direntInum

/-- The two agree when the first entry with the name is not free. -/
theorem liveInum_of_named {entries : List (List Byte)} {de : List Byte} (first : firstNamed name entries = some de)
    (live : direntInum de ≠ 0) : liveInum name entries = some (direntInum de) := by
  induction entries with
  | nil => cases first
  | cons head rest ih =>
    unfold firstNamed at first ih
    unfold liveInum at ih ⊢
    rw [List.find?_cons] at first ⊢
    by_cases same : SameName name head
    · simp only [same, decide_true, Option.some.injEq] at first
      subst first
      simp only [same, live, ne_eq, not_false_eq_true, and_self, decide_true, Option.map_some]
    · simp only [same, decide_false] at first
      simp only [same, and_false, decide_false]
      exact ih first

theorem liveInum_none {entries : List (List Byte)} (none : firstNamed name entries = none) :
    liveInum name entries = Option.none := by
  unfold firstNamed at none
  unfold liveInum
  rw [List.find?_eq_none] at none
  rw [Option.map_eq_none_iff, List.find?_eq_none]
  intro de member live
  exact none de member (by simpa using (of_decide_eq_true live).2)

theorem liveInum_ne_zero {entries : List (List Byte)} {n : ℕ} (found : liveInum name entries = some n) : n ≠ 0 := by
  unfold liveInum at found
  obtain ⟨de, first, rfl⟩ := Option.map_eq_some_iff.mp found
  have facts := List.find?_some first
  exact (of_decide_eq_true facts).1

end Directory

/-- The block of an offset below the size. -/
theorem BlocksThere.block {off : ℕ} (there : BlocksThere V d) (inside : off < d.size) :
    off / BSIZE < MAXFILE ∧ mapped V d (off / BSIZE) ≠ 0 ∧ mapped V d (off / BSIZE) ∈ fileBlocks V d ∧
      (¬ off / BSIZE < NDIRECT → d.addrs NDIRECT ∈ fileBlocks V d) := by
  have bounded := there.bounded
  have floor := Nat.div_mul_le_self off BSIZE
  have below : off / BSIZE * BSIZE < d.size := by omega
  refine ⟨Nat.div_lt_of_lt_mul (by rw [Nat.mul_comm]; omega), there.present _ below, .inr ⟨_, below, rfl⟩,
    fun far => .inl ⟨?_, rfl⟩⟩
  have least : NDIRECT * BSIZE ≤ off / BSIZE * BSIZE := Nat.mul_le_mul_right _ (by omega)
  omega

/-- `readi` of bytes of a directory that lie in one block. -/
theorem readk_settled {off len : ℕ} (settled : s.Settled dev V B) (here : (s.inodes i).dev = dev) (real : dev ≠ 0)
    (dir : Directory V (s.inodes i).din) (known : fileBlocks V (s.inodes i).din ⊆ B)
    (inside : off + len ≤ (s.inodes i).din.size) (positive : 0 < len) (within : off % BSIZE + len ≤ BSIZE) :
    Sat (readk me i off len) s E fun r s' => r = ((len : ℤ), (List.range len).map fun k =>
        V (mapped V (s.inodes i).din (off / BSIZE)) (off % BSIZE + k)) ∧
      s'.Settled dev V B ∧ s'.sb = s.sb ∧ s'.inodes = s.inodes := by
  have bounded := dir.bounded
  obtain ⟨small, present, member, indirect⟩ := dir.block (show off < (s.inodes i).din.size by omega)
  have noWrap : (off + len) % UINT = off + len := by
    refine Nat.mod_eq_of_lt ?_
    have limit : MAXFILE * BSIZE < UINT := by decide
    omega
  unfold readk readi
  refine Sat.bind getInode_sat ?_
  rintro _ _ ⟨rfl, rfl⟩
  rw [if_neg (by rw [noWrap]; omega)]
  dsimp only
  rw [if_neg (by omega)]
  refine (readiLoop_settled id (fun _ => True) (d := (s.inodes i).din)
    (fun _ spec => spec.mono fun _ _ post => ⟨post, trivial⟩)
    (fun _ _ _ _ _ => Sat.pure ⟨rfl, rfl, trivial⟩) real small (fun far => known (indirect far)) present
    (known member) len 0 [] (by omega) (by omega) trivial settled here rfl).mono ?_
  rintro r s' ⟨rfl, settled', sb', inodes', -⟩
  refine ⟨?_, settled', sb', inodes'⟩
  rw [List.nil_append, Nat.sub_zero, rounds_of_block within]

theorem readk_dirEntry {j : ℕ} (settled : s.Settled dev V B) (here : (s.inodes i).dev = dev) (real : dev ≠ 0)
    (dir : Directory V (s.inodes i).din) (known : fileBlocks V (s.inodes i).din ⊆ B)
    (inside : j < (s.inodes i).din.size / 16) :
    Sat (readk me i (16 * j) 16) s E fun r s' => r = (16, dirEntry V (s.inodes i).din j) ∧
      s'.Settled dev V B ∧ s'.sb = s.sb ∧ s'.inodes = s.inodes :=
  readk_settled settled here real dir known (by omega) (by omega) (by simp only [BSIZE]; omega)

theorem iget_room (room : ∃ j, (s.inodes j).ref = 0) (dev inum : ℕ) : ∃ j s', iget dev inum s = .ok (j, s') := by
  cases result : iget dev inum s with
  | ok pair => exact ⟨pair.1, pair.2, rfl⟩
  | error e =>
    obtain ⟨j, free⟩ := room
    exact absurd free ((iget_error result).2.1 j)

/-- Without a free entry `iget` may panic. -/
theorem iget_sat (room : (∃ j, (s.inodes j).ref = 0) ∨ ∀ e, E e) (dev inum : ℕ) :
    Sat (iget dev inum) s E fun j s' => iget dev inum s = .ok (j, s') := by
  unfold Sat
  cases result : iget dev inum s with
  | ok pair => rfl
  | error e =>
    rcases room with free | all
    · obtain ⟨j, s', got⟩ := iget_room free dev inum
      rw [result] at got
      cases got
    · exact all e

/-- The outcome of a scan that should return a reference to inode `want`, if to any: the buffers are
settled as before, and the reference is the one of `iget`. -/
def LookedUp (dev : ℕ) (V : ℕ → Block) (B : Set ℕ) (s : Fs) (want : Option ℕ) (r : Option (Fin INODES))
    (s' : Fs) : Prop :=
  ∃ s₁ : Fs, s₁.Settled dev V B ∧ s₁.sb = s.sb ∧ s₁.inodes = s.inodes ∧
    match want with
    | none => r = none ∧ s' = s₁
    | some n => ∃ j, r = some j ∧ iget dev n s₁ = .ok (j, s')

theorem inodeByNameLoop_settled (count j : ℕ) (settled : s.Settled dev V B) (here : (s.inodes i).dev = dev)
    (real : dev ≠ 0) (dir : Directory V (s.inodes i).din) (known : fileBlocks V (s.inodes i).din ⊆ B)
    (room : (∃ j, (s.inodes j).ref = 0) ∨ ∀ e, E e) (rest : j + count = (s.inodes i).din.size / 16) :
    Sat (inodeByNameLoop me i name count (16 * j)) s E fun r s' => LookedUp dev V B s
      ((firstNamed name ((List.range' j count).map (dirEntry V (s.inodes i).din))).map direntInum) r s' := by
  induction count generalizing s j with
  | zero => exact Sat.pure ⟨s, settled, rfl, rfl, rfl, rfl⟩
  | succ count ih =>
    unfold inodeByNameLoop
    refine Sat.bind (readk_dirEntry settled here real dir known (by omega)) ?_
    rintro _ s₁ ⟨rfl, settled₁, sb₁, inodes₁⟩
    dsimp only
    refine Sat.bind (Sat.stopIf (Q := fun _ t => s₁ = t) (fun bad => absurd rfl bad) fun _ => rfl) ?_
    rintro _ _ rfl
    rw [List.range'_succ, List.map_cons, firstNamed, List.find?_cons]
    by_cases same : SameName name (dirEntry V (s.inodes i).din j)
    · rw [if_pos ((strncmpZero_sameName _ _).mpr same)]
      simp only [same, decide_true, Option.map_some]
      refine Sat.bind getInode_sat ?_
      rintro _ _ ⟨rfl, rfl⟩
      rw [inodes₁, here]
      refine Sat.bind (iget_sat (by rwa [inodes₁]) dev _) ?_
      intro found s₂ got
      exact Sat.pure ⟨s₁, settled₁, sb₁, inodes₁, found, rfl, got⟩
    · rw [if_neg fun bad => same ((strncmpZero_sameName _ _).mp bad)]
      simp only [same, decide_false]
      rw [show 16 * j + 16 = 16 * (j + 1) by omega]
      refine (ih (j + 1) settled₁ (by rw [inodes₁, here]) (by rwa [inodes₁]) (by rwa [inodes₁])
        (by rwa [inodes₁]) (by rw [inodes₁]; omega)).mono ?_
      rintro r s' ⟨s₂, settled₂, sb₂, inodes₂, outcome⟩
      rw [inodes₁] at outcome
      exact ⟨s₂, settled₂, sb₂.trans sb₁, inodes₂.trans inodes₁, outcome⟩

/-- `inodeByName` gets the inode of the first entry with the name. -/
theorem inodeByName_settled (me : ℕ) (name : List Byte) (settled : s.Settled dev V B)
    (here : (s.inodes i).dev = dev) (real : dev ≠ 0) (dir : Directory V (s.inodes i).din)
    (known : fileBlocks V (s.inodes i).din ⊆ B) (room : (∃ j, (s.inodes j).ref = 0) ∨ ∀ e, E e) :
    Sat (inodeByName me i name) s E fun r s' =>
      LookedUp dev V B s ((firstNamed name (dirEntries V (s.inodes i).din)).map direntInum) r s' := by
  unfold inodeByName
  refine Sat.bind getInode_sat ?_
  rintro _ _ ⟨rfl, rfl⟩
  have whole := dir.whole
  rw [show ((s.inodes i).din.size + 15) / 16 = (s.inodes i).din.size / 16 by omega, dirEntries,
    List.range_eq_range']
  exact inodeByNameLoop_settled _ 0 settled here real dir known room (Nat.zero_add _)

/-- The pointer that a lookup returns: to an entry for inode `want` of the device, null if there is none. -/
def Fs.PointsTo (s : Fs) (dev : ℕ) (want : Option ℕ) (r : Option (Fin INODES)) : Prop :=
  match want, r with
  | some n, some j => s.Caches j dev n
  | none, none => True
  | _, _ => False

theorem iget_caches {inum : ℕ} {j : Fin INODES} {s' : Fs} (got : iget dev inum s = .ok (j, s')) :
    s'.Caches j dev inum := by
  rcases iget_ok got with ⟨held, rfl⟩ | ⟨-, -, rfl⟩
  · obtain ⟨positive, device, number⟩ := held
    refine ⟨?_, ?_, ?_⟩
    · rw [setInode_self]
      exact Int.lt_add_one_of_le positive.le
    · rwa [setInode_self]
    · rwa [setInode_self]
  · refine ⟨?_, ?_, ?_⟩ <;> rw [setInode_self]
    exact Int.one_pos

theorem LookedUp.pointsTo {want : Option ℕ} {r : Option (Fin INODES)} {s' : Fs}
    (looked : LookedUp dev V B s want r s') : s'.PointsTo dev want r := by
  obtain ⟨s₁, -, -, -, outcome⟩ := looked
  cases want with
  | none =>
    obtain ⟨rfl, rfl⟩ := outcome
    trivial
  | some n =>
    obtain ⟨j, rfl, got⟩ := outcome
    exact iget_caches got

/-- One pointer points to one inode. -/
theorem Fs.PointsTo.unique {want want' : Option ℕ} {r : Option (Fin INODES)} (one : s.PointsTo dev want r)
    (other : s.PointsTo dev want' r) : want = want' := by
  cases r with
  | none => cases want <;> cases want' <;> trivial
  | some j =>
    cases want with
    | none => cases one
    | some n =>
      cases want' with
      | none => cases other
      | some n' => exact congrArg some (one.2.2.symm.trans other.2.2)

/-- For every directory of whole entries with all its blocks there and every name, `inodeByName`
returns, and the pointer it returns is the right one exactly when the first entry that bears the
name, if there is one, is not free. -/
theorem inodeByName_right_iff (s : Fs) (me : ℕ) (i : Fin INODES) (name : List Byte) (real : (s.inodes i).dev ≠ 0)
    (dir : Directory s.cache.disk (s.inodes i).din)
    (saved : s.Settled (s.inodes i).dev s.cache.disk (fileBlocks s.cache.disk (s.inodes i).din))
    (room : ∃ j, (s.inodes j).ref = 0) :
    ∃ r s', inodeByName me i name s = .ok (r, s') ∧
      (s'.PointsTo (s.inodes i).dev (liveInum name (dirEntries s.cache.disk (s.inodes i).din)) r ↔
        ∀ de, firstNamed name (dirEntries s.cache.disk (s.inodes i).din) = some de → direntInum de ≠ 0) := by
  have spec : Sat (inodeByName me i name) s (fun _ => False) _ :=
    inodeByName_settled me name saved rfl real dir (fun _ member => member) (.inl room)
  obtain ⟨r, s', returned, looked⟩ := spec.returns
  refine ⟨r, s', returned, ?_⟩
  have points := looked.pointsTo
  cases first : firstNamed name (dirEntries s.cache.disk (s.inodes i).din) with
  | none =>
    rw [first] at points
    rw [liveInum_none first]
    exact iff_of_true points (by simp)
  | some de =>
    rw [first, Option.map_some] at points
    constructor
    · rintro right _ ⟨⟩
      exact liveInum_ne_zero (right.unique points)
    · intro live
      rw [liveInum_of_named first (live de rfl)]
      exact points

/-- A root directory of two entries, in block 4. -/
def twoEntries : Dinode := { type := T_DIR, size := 32, addrs := fun _ => 4 }

def tinySb : Superblock where
  magic := FSMAGIC
  size := 64
  nblocks := 59
  ninodes := 16
  nlog := 0
  logstart := 2
  inodestart := 2
  bmapstart := 3

/-- A kernel that holds the root directory. -/
def smallDir (block : Block) : Fs where
  cache := initBcache (Function.update (Function.update (fun _ _ => 0) 2 (twoEntries.write 1 fun _ => 0)) 4 block)
  sb := tinySb
  inodes := Function.update (fun _ => {}) 0 { dev := ROOTDEV, inum := ROOTINO, ref := 1, din := twoEntries }

theorem twoEntries_directory (disk : ℕ → Block) : Directory disk twoEntries where
  whole := rfl
  bounded := by decide
  present := by
    intro n below
    obtain rfl : n = 0 := by
      simp only [twoEntries, BSIZE] at below
      omega
    simp [mapped, NDIRECT, twoEntries]

theorem smallDir_settled (block : Block) (B : Set ℕ) :
    (smallDir block).Settled ROOTDEV (smallDir block).cache.disk B :=
  ⟨resting_initBcache _, fun n _ => ⟨block_initBcache _ (by decide) n, rfl⟩⟩

/-- The two entries `.` and `x` of inodes 1 and 7. -/
def dotAndX : Block := fun k => (dirent [0x2e] 1 ++ dirent [0x78] 7).getD k 0

theorem dirEntries_two {disk : ℕ → Block} {block : Block} (here : disk 4 = block) : dirEntries disk twoEntries =
    [(List.range 16).map block, (List.range 16).map fun k => block (16 + k)] := by
  have low : ∀ j < 2, dirEntry disk twoEntries j = (List.range 16).map fun k => block (16 * j + k) := by
    intro j small
    unfold dirEntry
    rw [Nat.div_eq_of_lt (by simp only [BSIZE]; omega), Nat.mod_eq_of_lt (by simp only [BSIZE]; omega)]
    simp [mapped, NDIRECT, twoEntries, here]
  rw [dirEntries, show twoEntries.size / 16 = 2 from rfl]
  simp [List.range_succ, low 0 (by omega), low 1 (by omega)]

theorem inodeByName_right_x : ∃ r s', inodeByName 1 0 [0x78] (smallDir dotAndX) = .ok (r, s') ∧
    s'.PointsTo ROOTDEV (some 7) r := by
  obtain ⟨r, s', returned, right⟩ := inodeByName_right_iff (smallDir dotAndX) 1 0 [0x78] (by decide)
    (twoEntries_directory _) (smallDir_settled _ _) ⟨1, rfl⟩
  have entries : dirEntries (smallDir dotAndX).cache.disk twoEntries = _ := dirEntries_two rfl
  change s'.PointsTo ROOTDEV (liveInum [0x78] (dirEntries _ twoEntries)) r ↔ _ at right
  rw [entries] at right
  exact ⟨r, s', returned, right.mpr (by decide)⟩

/-- In a directory of zeros the empty name finds inode 0. -/
theorem inodeByName_free : Directory (smallDir fun _ => 0).cache.disk twoEntries ∧
    ∃ r s', inodeByName 1 0 [] (smallDir fun _ => 0) = .ok (r, s') ∧
      ¬ s'.PointsTo ROOTDEV (liveInum [] (dirEntries (smallDir fun _ => 0).cache.disk twoEntries)) r := by
  refine ⟨twoEntries_directory _, ?_⟩
  have spec : Sat (inodeByName 1 0 []) (smallDir fun _ => 0) (fun _ => False) _ :=
    inodeByName_settled 1 [] (smallDir_settled _ _) rfl (by decide) (twoEntries_directory _)
      (fun _ member => member) (.inl ⟨1, rfl⟩)
  obtain ⟨r, s', returned, looked⟩ := spec.returns
  have points := looked.pointsTo
  have entries : dirEntries (smallDir fun _ => 0).cache.disk twoEntries = [_, _] := dirEntries_two rfl
  change s'.PointsTo ROOTDEV ((firstNamed [] (dirEntries _ twoEntries)).map _) r at points
  rw [entries] at points ⊢
  exact ⟨r, s', returned, fun right => absurd (right.unique points) (by decide)⟩

end HaloOS
