import HaloOS.Fs.Clean
import HaloOS.Mkfs.Consistency
import Mathlib.Data.List.TakeWhile

/-! The kernel reads the image as `mkfs` wrote it: superblock, directory entries, inodes
and the blocks of a file. -/

namespace HaloOS.Mkfs

open Lib

variable {table : ℕ → Dinode} {places : List Place} {s : State} {files : List Input}
  {me : ℕ} {E : Stop → Prop}

/-- The kernel decodes the superblock that `mkfs` encoded. -/
theorem read_sbByte : Superblock.read (sbByte sb) = sb := rfl

section Names

variable {name other : List Byte} {inum : ℕ}

/-- A C string: no byte of it is the terminator. -/
def CString (name : List Byte) : Prop := ∀ b ∈ name, b ≠ 0

instance (name : List Byte) : Decidable (CString name) :=
  inferInstanceAs (Decidable (∀ b ∈ name, b ≠ 0))

theorem cstr_eq (string : CString name) (k : ℕ) : cstr name k = name.getD k 0 := by
  have whole : name.takeWhile (· ≠ 0) = name := by
    rw [List.takeWhile_eq_self_iff]
    intro b member
    simpa using string b member
  rw [cstr, whole]

/-- Past its terminator a string reads as zero. -/
theorem cstr_stable (name : List Byte) (k : ℕ) (zero : cstr name k = 0) : cstr name (k + 1) = 0 := by
  unfold cstr at *
  generalize whole : name.takeWhile (· ≠ 0) = l at *
  have beyond : l.length ≤ k := by
    by_contra inside
    have member : l.getD k 0 ∈ l := by
      rw [List.getD_eq_getElem _ _ (by omega)]
      exact List.getElem_mem _
    have nonzero : ∀ b ∈ l, b ≠ 0 := by
      intro b here
      rw [← whole] at here
      simpa using List.mem_takeWhile_imp here
    exact nonzero _ member zero
  exact List.getD_eq_default _ _ (by omega)

theorem strncmpZero_iff {p q : ℕ → Byte} (stable : ∀ k, p k = 0 → p (k + 1) = 0)
    (stable' : ∀ k, q k = 0 → q (k + 1) = 0) (n k : ℕ) :
    strncmpZero p q n k = true ↔ ∀ j < n, p (k + j) = q (k + j) := by
  induction n generalizing k with
  | zero => simp [strncmpZero]
  | succ n ih =>
    unfold strncmpZero
    split
    · rename_i facts
      rw [ih]
      constructor
      · intro rest j small
        cases j with
        | zero => exact facts.2
        | succ j =>
          have next := rest j (by omega)
          rwa [show k + 1 + j = k + (j + 1) by omega] at next
      · intro all j small
        have next := all (j + 1) (by omega)
        rwa [show k + (j + 1) = k + 1 + j by omega] at next
    · rename_i stop
      rw [beq_iff_eq]
      constructor
      · intro same j _
        -- both strings end here
        have zero : p k = 0 := not_not.mp fun some => stop ⟨some, same⟩
        have tail : ∀ j, p (k + j) = 0 ∧ q (k + j) = 0 := by
          intro j
          induction j with
          | zero => exact ⟨zero, same ▸ zero⟩
          | succ j step => exact ⟨stable _ step.1, stable' _ step.2⟩
        rw [(tail j).1, (tail j).2]
      · intro all
        exact all 0 (by omega)

theorem direntName_dirent (name : List Byte) (inum k : ℕ) :
    direntName (dirent name inum) k = if k < DIRSIZ then cstr name k else 0 := by
  unfold direntName dirent
  rw [List.getD_append_right _ _ _ _ (by simp)]
  simp only [List.length_cons, List.length_nil, Nat.add_sub_cancel]
  by_cases small : k < DIRSIZ
  · rw [if_pos small, List.getD_eq_getElem _ _ (by simpa using small)]
    simp
  · rw [if_neg small, List.getD_eq_default _ _ (by simpa using small)]

theorem direntInum_dirent (name : List Byte) (small : inum < SHORT) :
    direntInum (dirent name inum) = inum := by
  refine (u16_of_bytes (x := inum) fun j bound => ?_).trans (Nat.mod_eq_of_lt small)
  rcases (by omega : j = 0 ∨ j = 1) with rfl | rfl <;> simp [dirent]

/-- The lookup compares the first `DIRSIZ` characters. -/
theorem strncmpZero_dirent (inum : ℕ) (string : CString name) (string' : CString other) :
    strncmpZero (cstr name) (direntName (dirent other inum)) DIRSIZ 0 = true ↔
      name.take DIRSIZ = other.take DIRSIZ := by
  have stable : ∀ k, direntName (dirent other inum) k = 0 →
      direntName (dirent other inum) (k + 1) = 0 := by
    intro k zero
    rw [direntName_dirent] at zero ⊢
    by_cases small : k + 1 < DIRSIZ
    · rw [if_pos small]
      rw [if_pos (by omega)] at zero
      exact cstr_stable other k zero
    · rw [if_neg small]
  rw [strncmpZero_iff (cstr_stable name) stable]
  have bytes : (∀ j < DIRSIZ, cstr name (0 + j) = direntName (dirent other inum) (0 + j)) ↔
      ∀ j < DIRSIZ, name.getD j 0 = other.getD j 0 := by
    refine forall₂_congr fun j small => ?_
    rw [Nat.zero_add, direntName_dirent, if_pos small, cstr_eq string, cstr_eq string']
  rw [bytes]
  -- a character of a string is never 0, so equal bytes mean equal lengths too
  have present : ∀ l : List Byte, CString l → ∀ j, l[j]? = if l.getD j 0 = 0 then none else some (l.getD j 0) := by
    intro l strings j
    by_cases inside : j < l.length
    · rw [List.getD_eq_getElem _ _ inside, if_neg (strings _ (List.getElem_mem inside)),
        List.getElem?_eq_getElem inside]
    · rw [List.getD_eq_default _ _ (by omega), if_pos rfl, List.getElem?_eq_none (by omega)]
  constructor
  · intro same
    refine List.ext_getElem? fun j => ?_
    rw [List.getElem?_take, List.getElem?_take]
    split
    · rename_i small
      rw [present name string, present other string', same j small]
    · rfl
  · intro same j small
    have equal := congrArg (·[j]?) same
    simp only [List.getElem?_take, small, ↓reduceIte] at equal
    rw [List.getD_eq_getElem?_getD, List.getD_eq_getElem?_getD, equal]

end Names

section Directory

/-- Entry `j` of the root directory, byte by byte. -/
theorem getD_flatMap_dirent (l : List (List Byte × ℕ)) {j k : ℕ} (inside : j < l.length)
    (small : k < 16) :
    (l.flatMap fun entry => dirent entry.1 entry.2).getD (16 * j + k) 0 =
      (dirent l[j].1 l[j].2).getD k 0 := by
  induction l generalizing j with
  | nil => simp at inside
  | cons entry rest ih =>
    have length := length_dirent entry.1 entry.2
    rw [List.flatMap_cons]
    cases j with
    | zero =>
      rw [List.getD_append _ _ _ _ (by omega)]
      simp
    | succ j =>
      rw [List.getD_append_right _ _ _ _ (by omega), length,
        show 16 * (j + 1) + k - 16 = 16 * j + k by omega, ih (by simpa using inside)]
      simp

theorem mapped_eq_stored (image : Image) (i n : ℕ) :
    mapped image.data (image.inode i) n = image.stored (place i n) := by
  unfold mapped place
  split <;> rfl

/-- Where the kernel finds byte `k` of an inode. -/
theorem Built.byte (built : Built files s table places) {i k : ℕ} (inside : i < ninodeblocks * IPB)
    (below : k < (contentsOf files i).length) :
    k / BSIZE < MAXFILE ∧ mapped s.image.data (s.image.inode i) (k / BSIZE) ≠ 0 ∧
      ∀ o < BSIZE, s.image.data (mapped s.image.data (s.image.inode i) (k / BSIZE)) o =
        (contentsOf files i).getD (k / BSIZE * BSIZE + o) 0 := by
  have limit := built.small i
  have small : k / BSIZE < MAXFILE := by
    simp only [BSIZE] at *
    omega
  have start : k / BSIZE * BSIZE < (contentsOf files i).length := by
    have floor := Nat.div_mul_le_self k BSIZE
    omega
  have owner : (place i (k / BSIZE)).owner = i := by
    unfold place
    split <;> rfl
  have here : (place i (k / BSIZE)).OnImage := ⟨place_valid small, owner.symm ▸ inside⟩
  have member : place i (k / BSIZE) ∈ places :=
    (built.holds.full _).mpr ((placed_place small).mpr start)
  rw [mapped_eq_stored]
  refine ⟨small, (built.place_ne_zero inside small).mpr start, fun o bound => ?_⟩
  rw [built.stored_eq here]
  exact built.holds.blocks.bytes i _ member o bound

/-- The 16 bytes at the offset of entry `j` of the root directory. -/
theorem Built.entry (built : Built files s table places) {j : ℕ} (inside : j < (entries files).length) :
    (List.range 16).map (fun k => s.image.data
        (mapped s.image.data (s.image.inode ROOTINO) (16 * j / BSIZE)) (16 * j % BSIZE + k)) =
      dirent (entries files)[j].1 (entries files)[j].2 := by
  have count := length_entries files
  have length : (contentsOf files ROOTINO).length = 16 * (files.length + 2) := by
    rw [contentsOf, if_pos rfl, length_rootBytes]
  obtain ⟨-, -, bytes⟩ := built.byte (i := ROOTINO) (k := 16 * j) (by decide) (by omega)
  refine List.ext_getElem (by simp [length_dirent]) fun k small small' => ?_
  rw [List.length_map, List.length_range] at small
  have within : 16 * j % BSIZE + k < BSIZE := by
    simp only [BSIZE]
    omega
  have offset : 16 * j / BSIZE * BSIZE + (16 * j % BSIZE + k) = 16 * j + k := by
    simp only [BSIZE]
    omega
  rw [List.getElem_map, List.getElem_range, bytes _ within, offset, contentsOf, if_pos rfl, rootBytes,
    getD_flatMap_dirent _ inside small, List.getD_eq_getElem _ _ small']

end Directory

section Lookup

variable {fs : Fs} {r : Fin INODES} {name : List Byte}

theorem entries_string (files : List Input) : ∀ entry ∈ entries files, CString entry.1 := by
  have short : ∀ file : Input, CString (shortname file.arg) := by
    intro file b member
    refine file.cstring b ?_
    have named : ∀ l : List Byte, b ∈ (if l.head? = some 0x5f then l.tail else l) → b ∈ l := by
      intro l here
      split at here
      · exact List.mem_of_mem_tail here
      · exact here
    unfold shortname at member
    have inside := named _ member
    split at inside
    · exact List.mem_of_mem_drop inside
    · exact inside
  intro entry member
  simp only [entries, List.mem_cons] at member
  rcases member with rfl | rfl | file
  · decide
  · decide
  · obtain ⟨j, bound, rfl⟩ := List.mem_mapIdx.mp file
    exact short _

theorem entries_inum (few : files.length ≤ NINODES - 2) : ∀ entry ∈ entries files, entry.2 < SHORT := by
  have count : files.length ≤ 198 := few
  intro entry member
  simp only [entries, List.mem_cons] at member
  rcases member with rfl | rfl | file
  · decide
  · decide
  · obtain ⟨j, bound, rfl⟩ := List.mem_mapIdx.mp file
    simp only [SHORT]
    omega

/-- The kernel reads entry `j` of the root directory. -/
theorem readk_entry (built : Built files s table places) (few : files.length ≤ NINODES - 2) {j : ℕ}
    (inside : j < (entries files).length) (clean : Clean s.image.data sb fs)
    (dev : (fs.inodes r).dev = ROOTDEV) (din : (fs.inodes r).din = s.image.inode ROOTINO) :
    Sat (readk me r (16 * j) 16) fs E fun res fs' => Clean s.image.data sb fs' ∧
      fs'.inodes = fs.inodes ∧ res = (16, dirent (entries files)[j].1 (entries files)[j].2) := by
  have count := length_entries files
  have length : (contentsOf files ROOTINO).length = 16 * (files.length + 2) := by
    rw [contentsOf, if_pos rfl, length_rootBytes]
  have total : files.length ≤ 198 := few
  have size : (fs.inodes r).din.size = (16 * (files.length + 2) / BSIZE + 1) * BSIZE := by
    rw [din, (built.inode_same (by decide)).size, built.root, length_rootBytes]
  obtain ⟨small, some, -⟩ := built.byte (i := ROOTINO) (k := 16 * j) (by decide) (by omega)
  have read : Sat (readk me r (16 * j) 16) fs E fun r' s' => Clean s.image.data sb s' ∧
      s'.inodes = fs.inodes ∧ r' = (((16 : ℕ) : ℤ), (List.range 16).map fun k =>
        s.image.data (mapped s.image.data (fs.inodes r).din (16 * j / BSIZE)) (16 * j % BSIZE + k)) := by
    refine readk_clean clean dev (by omega) ?_ ?_ ?_ small (by rwa [din])
    · rw [size]
      simp only [BSIZE]
      omega
    · rw [size]
      simp only [BSIZE, UINT]
      omega
    · simp only [BSIZE]
      omega
  refine read.mono ?_
  rintro _ fs' ⟨clean', inodes', rfl⟩
  rw [din, built.entry inside]
  exact ⟨clean', inodes', rfl⟩

/-- One round of the loop of `inodeByName`, at entry `j`. -/
theorem lookup_round {Q : Option (Fin INODES) → Fs → Prop} (built : Built files s table places)
    (few : files.length ≤ NINODES - 2) (string : CString name) {j n : ℕ}
    (here : j < (entries files).length) (clean : Clean s.image.data sb fs)
    (dev : (fs.inodes r).dev = ROOTDEV) (din : (fs.inodes r).din = s.image.inode ROOTINO)
    (hit : name.take DIRSIZ = (entries files)[j].1.take DIRSIZ → ∀ fs₁, Clean s.image.data sb fs₁ →
      fs₁.inodes = fs.inodes → Sat (do
        let ip ← getInode r
        let found ← iget ip.dev (entries files)[j].2
        pure (some found)) fs₁ E Q)
    (miss : name.take DIRSIZ ≠ (entries files)[j].1.take DIRSIZ → ∀ fs₁, Clean s.image.data sb fs₁ →
      fs₁.inodes = fs.inodes → Sat (inodeByNameLoop me r name n (16 * (j + 1))) fs₁ E Q) :
    Sat (inodeByNameLoop me r name (n + 1) (16 * j)) fs E Q := by
  have compare := strncmpZero_dirent (entries files)[j].2 string
    (entries_string files _ (List.getElem_mem here))
  have inum := direntInum_dirent (entries files)[j].1 (entries_inum few _ (List.getElem_mem here))
  unfold inodeByNameLoop
  refine Sat.bind (readk_entry built few here clean dev din) ?_
  rintro _ fs₁ ⟨clean₁, inodes₁, rfl⟩
  refine Sat.bind (Sat.stopIf (Q := fun _ u => fs₁ = u) (fun bad => absurd rfl bad) fun _ => rfl) ?_
  rintro _ _ rfl
  refine Sat.ite (fun same => ?_) fun other => ?_
  · rw [inum]
    exact hit (compare.mp same) fs₁ clean₁ inodes₁
  · exact miss (mt compare.mpr other) fs₁ clean₁ inodes₁

/-- The loop of `inodeByName` from entry `j` on, when entry `t`, `d` further, is the first
that matches. -/
theorem inodeByNameLoop_spec (built : Built files s table places) (few : files.length ≤ NINODES - 2)
    (string : CString name) (d : ℕ) {j n t : ℕ} (target : j + d = t) (inside : t < (entries files).length)
    (enough : d < n)
    (others : ∀ m (bound : m < (entries files).length), m < t →
      name.take DIRSIZ ≠ (entries files)[m].1.take DIRSIZ)
    (first : name.take DIRSIZ = (entries files)[t].1.take DIRSIZ)
    (clean : Clean s.image.data sb fs) (dev : (fs.inodes r).dev = ROOTDEV)
    (din : (fs.inodes r).din = s.image.inode ROOTINO)
    (absent : ∀ i, 0 < (fs.inodes i).ref → (fs.inodes i).dev = ROOTDEV →
      (fs.inodes i).inum ≠ (entries files)[t].2)
    (free : ∃ i, (fs.inodes i).ref = 0) :
    Sat (inodeByNameLoop me r name n (16 * j)) fs E fun found fs' => ∃ i, found = some i ∧
      (fs.inodes i).ref = 0 ∧ Clean s.image.data sb fs' ∧
      fs'.inodes = Function.update fs.inodes i { fs.inodes i with
        dev := ROOTDEV, inum := (entries files)[t].2, ref := 1, vaild := false } := by
  obtain ⟨n, rfl⟩ : ∃ m, n = m + 1 := ⟨n - 1, by omega⟩
  have here : j < (entries files).length := by omega
  induction d generalizing j n fs with
  | zero =>
    obtain rfl : j = t := target
    refine lookup_round built few string here clean dev din ?_ fun other => absurd first other
    intro _ fs₁ clean₁ inodes₁
    refine Sat.bind getInode_sat ?_
    rintro _ _ ⟨rfl, rfl⟩
    rw [inodes₁, dev]
    refine Sat.bind (iget_free (by rwa [inodes₁]) (by rwa [inodes₁])) ?_
    rintro i _ ⟨zero, rfl⟩
    refine Sat.pure ⟨i, rfl, inodes₁ ▸ zero, ⟨clean₁.idle, clean₁.super⟩, ?_⟩
    simp only [Fs.setInode, inodes₁]
  | succ d ih =>
    refine lookup_round built few string here clean dev din
      (fun same => absurd same (others j here (by omega))) ?_
    intro _ fs₁ clean₁ inodes₁
    obtain ⟨n, rfl⟩ : ∃ m, n = m + 1 := ⟨n - 1, by omega⟩
    have rest := ih (j := j + 1) (by omega) clean₁ (by rwa [inodes₁]) (by rwa [inodes₁])
      (by rwa [inodes₁]) (by rwa [inodes₁]) n (by omega) (by omega)
    rwa [inodes₁] at rest

/-- The kernel before `initfs`. -/
def bootFs (disk : ℕ → Block) : Fs where
  cache := initBcache disk
  sb := Superblock.read fun _ => 0
  inodes := initInodecache

/-- `inodeByName` in the locked root directory, and `ilock` of what it found. -/
def lookupLocked (me : ℕ) (name : List Byte) : Fio (Option (Fin INODES)) := do
  let root ← rooti
  ilock me (some root)
  let found ← inodeByName me root name
  ilock me found
  pure found

theorem initfs_spec (me : ℕ) (built : Built files s table places) :
    Sat (initfs me ROOTDEV) (bootFs s.image.data) E fun _ fs =>
      Clean s.image.data sb fs ∧ fs.inodes = initInodecache := by
  have clean : Clean s.image.data (Superblock.read fun _ => 0) (bootFs s.image.data) :=
    ⟨idle_initBcache _, rfl⟩
  unfold initfs
  refine Sat.bind (readsb_clean clean) ?_
  rintro _ fs ⟨clean₁, inodes₁⟩
  rw [built.super, read_sbByte] at clean₁
  refine Sat.bind (Sat.gets (Q := fun a t => sb = a ∧ fs = t) ⟨clean₁.super.symm, rfl⟩) ?_
  rintro _ _ ⟨rfl, rfl⟩
  exact Sat.stopIf (fun bad => absurd rfl bad) fun _ => ⟨clean₁, inodes₁⟩

/-- Looking up the first entry with a name loads its inode into the cache. -/
theorem lookupLocked_spec (me : ℕ) (built : Built files s table places) (few : files.length ≤ NINODES - 2)
    (string : CString name) {t : ℕ} (inside : t < (entries files).length)
    (others : ∀ m (bound : m < (entries files).length), m < t →
      name.take DIRSIZ ≠ (entries files)[m].1.take DIRSIZ)
    (first : name.take DIRSIZ = (entries files)[t].1.take DIRSIZ)
    (notRoot : (entries files)[t].2 ≠ ROOTINO)
    (clean : Clean s.image.data sb fs) (fresh : fs.inodes = initInodecache) :
    Sat (lookupLocked me name) fs E fun found fs' => ∃ i, found = some i ∧
      Clean s.image.data sb fs' ∧ (fs'.inodes i).dev = ROOTDEV ∧
      (fs'.inodes i).din = s.image.inode (entries files)[t].2 := by
  have unused : ∀ i, (fs.inodes i).ref = 0 := fun i => by rw [fresh]; rfl
  have count := length_entries files
  unfold lookupLocked
  refine Sat.bind (iget_free (fun i bad => by rw [unused i] at bad; omega) ⟨⟨0, by decide⟩, unused _⟩) ?_
  rintro root _ ⟨-, rfl⟩
  generalize at₁ : fs.setInode root (fun ip => { ip with
    dev := ROOTDEV, inum := ROOTINO, ref := 1, vaild := false }) = fs₁
  have clean₁ : Clean s.image.data sb fs₁ := at₁ ▸ ⟨clean.idle, clean.super⟩
  have inodes₁ : fs₁.inodes = Function.update fs.inodes root { fs.inodes root with
      dev := ROOTDEV, inum := ROOTINO, ref := 1, vaild := false } := at₁ ▸ rfl
  have here₁ : fs₁.inodes root = { fs.inodes root with
      dev := ROOTDEV, inum := ROOTINO, ref := 1, vaild := false } := by
    rw [inodes₁, Function.update_self]
  refine Sat.bind (ilock_clean clean₁ (by rw [here₁]) (by rw [here₁]; exact Int.one_pos)
    (by rw [here₁, fresh]; rfl) (by rw [here₁])) ?_
  rintro _ fs₂ ⟨clean₂, inodes₂⟩
  have here₂ : fs₂.inodes root = { fs₁.inodes root with
      splock := ⟨true, me⟩
      din := Dinode.read (s.image.data (IBLOCK (fs₁.inodes root).inum sb))
        ((fs₁.inodes root).inum % IPB) } := by
    rw [inodes₂, Function.update_self]
  have elsewhere : ∀ i ≠ root, fs₂.inodes i = fs.inodes i := by
    intro i other
    rw [inodes₂, Function.update_of_ne other, inodes₁, Function.update_of_ne other]
  have din : (fs₂.inodes root).din = s.image.inode ROOTINO := by
    rw [here₂, here₁]
    rfl
  have dev : (fs₂.inodes root).dev = ROOTDEV := by rw [here₂, here₁]
  have size : (s.image.inode ROOTINO).size = (16 * (files.length + 2) / BSIZE + 1) * BSIZE := by
    rw [(built.inode_same (by decide)).size, built.root, length_rootBytes]
  have spare : ∃ i : Fin INODES, i ≠ root := by
    by_cases zero : root = ⟨0, by decide⟩
    · exact ⟨⟨1, by decide⟩, by rw [zero]; decide⟩
    · exact ⟨⟨0, by decide⟩, fun same => zero same.symm⟩
  unfold inodeByName
  refine Sat.bind (Sat.bind getInode_sat ?_) ?_ (Q := fun found fs₃ => ∃ i, found = some i ∧
      (fs₂.inodes i).ref = 0 ∧ Clean s.image.data sb fs₃ ∧
      fs₃.inodes = Function.update fs₂.inodes i { fs₂.inodes i with
        dev := ROOTDEV, inum := (entries files)[t].2, ref := 1, vaild := false })
  · rintro _ _ ⟨rfl, rfl⟩
    refine inodeByNameLoop_spec built few string t (Nat.zero_add t) inside ?_ others first clean₂ dev din
      ?_ ?_
    · rw [din, size]
      simp only [BSIZE]
      omega
    · intro i referenced _
      by_cases same : i = root
      · subst same
        rw [here₂, here₁]
        exact fun bad => notRoot bad.symm
      · rw [elsewhere i same, unused i] at referenced
        exact absurd referenced (lt_irrefl _)
    · obtain ⟨i, other⟩ := spare
      exact ⟨i, by rw [elsewhere i other, unused i]⟩
  · rintro _ fs₃ ⟨i, rfl, zero, clean₃, inodes₃⟩
    have other : i ≠ root := by
      rintro rfl
      rw [here₂, here₁] at zero
      exact absurd zero Int.one_ne_zero
    have here₃ : fs₃.inodes i = { fs₂.inodes i with
        dev := ROOTDEV, inum := (entries files)[t].2, ref := 1, vaild := false } := by
      rw [inodes₃, Function.update_self]
    refine Sat.bind (ilock_clean clean₃ (by rw [here₃]) (by rw [here₃]; exact Int.one_pos)
      (by rw [here₃, elsewhere i other, fresh]; rfl) (by rw [here₃])) ?_
    rintro _ fs₄ ⟨clean₄, inodes₄⟩
    refine Sat.pure ⟨i, rfl, clean₄, ?_, ?_⟩
    · rw [inodes₄, Function.update_self, here₃]
    · rw [inodes₄, Function.update_self, here₃]
      rfl

theorem getElem_entries {j : ℕ} (inside : j < files.length) (here : j + 2 < (entries files).length) :
    (entries files)[j + 2] = (shortname files[j].arg, j + 2) := by
  simp [entries]

theorem take_eq_dots {l : List Byte} (short : l.length < DIRSIZ) (same : name.take DIRSIZ = l.take DIRSIZ) :
    name = l := by
  rw [List.take_of_length_le (le_of_lt short)] at same
  have length := congrArg List.length same
  rw [List.length_take] at length
  rwa [List.take_of_length_le (by omega)] at same

/-- With distinct names the first match for a file is its own entry. -/
theorem entries_first (distinct : (files.map fun file => (shortname file.arg).take DIRSIZ).Nodup)
    (dots : ∀ file ∈ files, shortname file.arg ≠ [0x2e] ∧ shortname file.arg ≠ [0x2e, 0x2e]) {j : ℕ}
    (inside : j < files.length) (m : ℕ) (bound : m < (entries files).length) (before : m < j + 2) :
    (shortname files[j].arg).take DIRSIZ ≠ (entries files)[m].1.take DIRSIZ := by
  have special := dots files[j] (List.getElem_mem inside)
  intro same
  match m, bound, before, same with
  | 0, _, _, same => exact special.1 (take_eq_dots (by decide) same)
  | 1, _, _, same => exact special.2 (take_eq_dots (by decide) same)
  | m + 2, bound, before, same =>
    have inside' : m < files.length := by omega
    rw [getElem_entries inside' bound] at same
    generalize names : (files.map fun file => (shortname file.arg).take DIRSIZ) = l at distinct
    have one : j < l.length := by rwa [← names, List.length_map]
    have two : m < l.length := by rwa [← names, List.length_map]
    have equal : l[j] = l[m] := by simpa [← names] using same
    have index : j = m := distinct.getElem_inj_iff.mp equal
    omega

/-- On the image that `mkfs` wrote, the kernel finds every file under its name, with its
size and bytes, and `bmap` allocates nothing. -/
theorem kernel_reads_image (files : List Input) (few : files.length ≤ NINODES - 2)
    (distinct : (files.map fun file => (shortname file.arg).take DIRSIZ).Nodup)
    (dots : ∀ file ∈ files, shortname file.arg ≠ [0x2e] ∧ shortname file.arg ≠ [0x2e, 0x2e])
    (s : State) (exits : run files = .ok s) (me : ℕ) :
    ∃ fs, initfs me ROOTDEV (bootFs s.image.data) = .ok ((), fs) ∧
      ∀ file ∈ files, ∃ ip fs₁, lookupLocked me (shortname file.arg) fs = .ok (some ip, fs₁) ∧
        (fs₁.inodes ip).din.type = T_FILE ∧ (fs₁.inodes ip).din.size = file.content.length ∧
        ∀ k (below : k < file.content.length), ∃ b fs₂,
          bmap me ip (k / BSIZE) fs₁ = .ok (b, fs₂) ∧ s.image.data b (k % BSIZE) = file.content[k] ∧
          fs₂.inodes = fs₁.inodes ∧ fs₂.cache.disk = s.image.data ∧
          ∀ n, fs₂.cache.block ROOTDEV n = s.image.data n := by
  obtain ⟨table, places, built⟩ := run_built (slots_of_few few) exits
  obtain ⟨_, fs, booted, clean, fresh⟩ := (initfs_spec me built).returns
  refine ⟨fs, booted, fun file member => ?_⟩
  obtain ⟨j, inside, rfl⟩ := List.getElem_of_mem member
  have here : j + 2 < (entries files).length := by
    rw [length_entries]
    omega
  have entry := getElem_entries inside here
  have string : CString (shortname files[j].arg) := by
    have strings := entries_string files _ (List.getElem_mem here)
    rwa [entry] at strings
  have slot : j + 2 < ninodeblocks * IPB := by
    have count : files.length ≤ 198 := few
    have total : ninodeblocks * IPB = 208 := rfl
    omega
  have other : j + 2 ≠ ROOTINO := by
    simp only [ROOTINO]
    omega
  have content : contentsOf files (j + 2) = files[j].content := by
    rw [contentsOf, if_neg other, if_pos (by omega), Nat.add_sub_cancel, List.getElem?_eq_getElem inside]
    rfl
  obtain ⟨_, fs₁, found, i, rfl, clean₁, dev₁, din₁⟩ := (lookupLocked_spec me built few string
    here (entries_first distinct dots inside) (by rw [entry]) (by rw [entry]; exact other) clean
    fresh).returns
  rw [entry] at din₁
  have same := built.inode_same slot
  refine ⟨i, fs₁, found, ?_, ?_, fun k below => ?_⟩
  · rw [din₁, same.type, (built.kind _).1, kindsOf, if_neg other, if_pos (by omega)]
  · rw [din₁, same.size, built.sizes _ other, content]
  · obtain ⟨small, some, bytes⟩ := built.byte slot (content ▸ below)
    rw [← din₁] at some
    obtain ⟨b, fs₂, mapped₂, rfl, clean₂, inodes₂⟩ := (bmap_clean me clean₁ dev₁ small some).returns
    refine ⟨_, fs₂, mapped₂, ?_, inodes₂, clean₂.idle.onDisk, clean₂.idle.block⟩
    rw [din₁, bytes _ (Nat.mod_lt _ (by decide)), content, Nat.div_add_mod' k BSIZE,
      List.getD_eq_getElem _ _ below]

end Lookup

/-- The kernel opens the one file of an image and finds its three bytes. -/
theorem kernel_reads_hi : ∃ s fs ip fs₁, run [hi] = .ok s ∧
    initfs 1 ROOTDEV (bootFs s.image.data) = .ok ((), fs) ∧
    lookupLocked 1 [0x68, 0x69] fs = .ok (some ip, fs₁) ∧ (fs₁.inodes ip).din.size = 3 := by
  obtain ⟨s, exits⟩ := run_small [hi] (by decide) (by decide) (by decide)
  obtain ⟨fs, booted, found⟩ :=
    kernel_reads_image [hi] (by decide) (by decide) (by decide) s exits 1
  obtain ⟨ip, fs₁, looked, -, size, -⟩ := found hi (by simp)
  exact ⟨s, fs, ip, fs₁, exits, booted, looked, size⟩

end HaloOS.Mkfs
