import HaloOS.Lib.Logged
import HaloOS.Mkfs.Consistency

/-! How many inodes `mkfs` hands out and where it puts them. The builder is run with a note
of every inode number `ialloc` returns and of every block that `winode` and `rinode` touch. -/

namespace HaloOS.Mkfs

open Lib

/-- What is noted of a run. -/
inductive Access where
  | alloc (inum : ℕ)
  | inode (block : ℕ)
  deriving DecidableEq

abbrev Lio := Logged Abort State Access

namespace Noted

def winode (inum : ℕ) (ip : Dinode) : Lio Unit := do
  note (.inode (sector (IBLOCK inum sb)))
  plain (Mkfs.winode inum ip)

def rinode (inum : ℕ) : Lio Dinode := do
  note (.inode (sector (IBLOCK inum sb)))
  plain (Mkfs.rinode inum)

def ialloc (type : ℕ) : Lio ℕ := do
  let s ← plain (gets id)
  plain (update ({ · with freeinode := s.freeinode + 1 }))
  note (.alloc s.freeinode)
  winode s.freeinode { type, nlink := 1 }
  pure s.freeinode

def iappend (inum : ℕ) (p : List Byte) : Lio Unit := do
  let din ← rinode inum
  let (din, off) ← plain (iappendLoop p.length din din.size p)
  winode inum { din with size := off }

def copyFile (inum : ℕ) : List (List Byte) → Lio Unit
  | [] => pure ()
  | chunk :: rest => do
    iappend inum chunk
    copyFile inum rest

def addFiles (rootino : ℕ) : List Input → Lio Unit
  | [] => pure ()
  | file :: rest => do
    match file.reads with
    | none => throw (.die "open")
    | some chunks => do
      let inum ← ialloc T_FILE
      iappend rootino (dirent (shortname file.arg) inum)
      copyFile inum chunks
      addFiles rootino rest

def build (files : List Input) : Lio Unit := do
  plain (wsect 1 (sbByte sb))
  let rootino ← ialloc T_DIR
  stopIf (rootino ≠ ROOTINO) .assertion
  iappend rootino (dirent [0x2e] rootino)
  iappend rootino (dirent [0x2e, 0x2e] rootino)
  addFiles rootino files
  let din ← rinode rootino
  winode rootino { din with size := (din.size / BSIZE + 1) * BSIZE % UINT }
  let s ← plain (gets id)
  plain (balloc s.freeblock)

def main (files : List Input) : Lio Unit := do
  plain (zeroLoop FSSIZE 0)
  build files

end Noted

/-- What `mkfs` notes when it exits with 0. -/
def accesses (files : List Input) : Except Abort (List Access) :=
  (Noted.main files (start, [])).map (·.2.2)

section Erasure

/-! The notes change nothing: without them the run is the one of `main`. -/

theorem erases_winode (inum : ℕ) (ip : Dinode) : Erases (Noted.winode inum ip) (winode inum ip) :=
  .note _ (.plain _)

theorem erases_rinode (inum : ℕ) : Erases (Noted.rinode inum) (rinode inum) :=
  .note _ (.plain _)

theorem erases_ialloc (type : ℕ) : Erases (Noted.ialloc type) (ialloc type) := by
  refine .bind (.plain _) fun s => .bind (.plain _) fun _ => .note _ ?_
  exact .bind (erases_winode _ _) fun _ => .pure _

theorem erases_iappend (inum : ℕ) (p : List Byte) :
    Erases (Noted.iappend inum p) (iappend inum p) := by
  refine .bind (erases_rinode inum) fun din => .bind (.plain _) fun result => ?_
  exact erases_winode _ _

theorem erases_copyFile (inum : ℕ) (chunks : List (List Byte)) :
    Erases (Noted.copyFile inum chunks) (copyFile inum chunks) := by
  induction chunks with
  | nil => exact .pure ()
  | cons chunk rest ih => exact .bind (erases_iappend inum chunk) fun _ => ih

theorem erases_addFiles (rootino : ℕ) (files : List Input) :
    Erases (Noted.addFiles rootino files) (addFiles rootino files) := by
  induction files with
  | nil => exact .pure ()
  | cons file rest ih =>
    unfold Noted.addFiles addFiles
    cases file.reads with
    | none => exact .throw _
    | some chunks =>
      refine .bind (erases_ialloc T_FILE) fun inum => .bind (erases_iappend _ _) fun _ => ?_
      exact .bind (erases_copyFile inum chunks) fun _ => ih

theorem erases_build (files : List Input) : Erases (Noted.build files) (build files) := by
  refine .bind (.plain _) fun _ => .bind (erases_ialloc T_DIR) fun rootino => ?_
  refine .bind (.stopIf _ _) fun _ => ?_
  refine .bind (erases_iappend _ _) fun _ => .bind (erases_iappend _ _) fun _ => ?_
  refine .bind (erases_addFiles rootino files) fun _ => .bind (erases_rinode rootino) fun din => ?_
  exact .bind (erases_winode _ _) fun _ => .bind (.plain _) fun s => .plain _

theorem erases_main (files : List Input) : Erases (Noted.main files) (main files) :=
  .bind (.plain _) fun _ => erases_build files

end Erasure

section Counter

variable {α β : Type}

/-- Wherever it is run, the computation leaves `freeinode` alone. -/
def Keeps (m : Hio α) : Prop := ∀ s, Sat m s anyStop fun _ s' => s'.freeinode = s.freeinode

namespace Keeps

theorem bind {m : Hio α} {f : α → Hio β} (first : Keeps m) (next : ∀ a, Keeps (f a)) :
    Keeps (m >>= f) := by
  intro s
  refine Sat.bind (first s) fun a s₁ same => ?_
  exact (next a s₁).mono fun _ _ again => again.trans same

theorem pure (a : α) : Keeps (pure a) := fun _ => Sat.pure rfl

theorem stopIf (c : Prop) [Decidable c] (e : Abort) : Keeps (stopIf c e) :=
  fun _ => Sat.stopIf (fun _ => trivial) fun _ => rfl

theorem gets (f : State → α) : Keeps (gets f) := fun _ => Sat.gets rfl

theorem update {f : State → State} (same : ∀ s, (f s).freeinode = s.freeinode) : Keeps (update f) :=
  fun s => Sat.update (same s)

end Keeps

theorem keeps_wsect (sec : ℕ) (buf : Block) : Keeps (wsect sec buf) := .update fun _ => rfl

theorem keeps_rsect (sec : ℕ) : Keeps (rsect sec) :=
  .bind (.gets _) fun _ => .bind (.stopIf _ _) fun _ => .pure _

theorem keeps_winode (inum : ℕ) (ip : Dinode) : Keeps (winode inum ip) :=
  .bind (keeps_rsect _) fun _ => keeps_wsect _ _

theorem keeps_rinode (inum : ℕ) : Keeps (rinode inum) :=
  .bind (keeps_rsect _) fun _ => .pure _

theorem keeps_nextBlock : Keeps nextBlock :=
  .bind (.gets _) fun _ => .bind (.update fun _ => rfl) fun _ => .pure _

theorem keeps_appendIndirect (din : Dinode) : Keeps (appendIndirect din) := by
  unfold appendIndirect
  split
  · exact .bind keeps_nextBlock fun _ => .pure _
  · exact .pure _

theorem keeps_appendBlock (din : Dinode) (fbn : ℕ) : Keeps (appendBlock din fbn) := by
  unfold appendBlock
  split
  · split
    · exact .bind keeps_nextBlock fun _ => .pure _
    · exact .pure _
  · refine .bind (keeps_appendIndirect din) fun din => .bind (keeps_rsect _) fun indirect => ?_
    split
    · exact .bind keeps_nextBlock fun _ => .bind (keeps_wsect _ _) fun _ => .pure _
    · exact .pure _

theorem keeps_iappendLoop (fuel : ℕ) (din : Dinode) (off : ℕ) (p : List Byte) :
    Keeps (iappendLoop fuel din off p) := by
  induction fuel generalizing din off p with
  | zero => exact .pure _
  | succ fuel ih =>
    unfold iappendLoop
    split
    · exact .pure _
    · refine .bind (.stopIf _ _) fun _ => .bind (keeps_appendBlock _ _) fun result => ?_
      refine .bind (keeps_rsect _) fun buf => .bind ?_ fun _ => ih _ _ _
      exact .bind (.update fun _ => rfl) fun _ => keeps_wsect _ _

theorem keeps_balloc (used : ℕ) : Keeps (balloc used) :=
  .bind (.stopIf _ _) fun _ => keeps_wsect _ _

theorem keeps_zeroLoop (n i : ℕ) : Keeps (zeroLoop n i) := by
  induction n generalizing i with
  | zero => exact .pure ()
  | succ n ih => exact .bind (keeps_wsect _ _) fun _ => ih _

end Counter

section Notes

variable {t : State × List Access} {inum : ℕ}

/-- Both notes that an inode leaves. -/
def Access.about (a : Access) (inum : ℕ) : Prop :=
  a = .alloc inum ∨ a = .inode (sector (IBLOCK inum sb))

/-- The notes are about the inodes handed out so far, and about all of them. -/
structure Tracked (t : State × List Access) : Prop where
  positive : 1 ≤ t.1.freeinode
  exactly : ∀ a, a ∈ t.2 ↔ ∃ inum, 1 ≤ inum ∧ inum < t.1.freeinode ∧ a.about inum

/-- The outcome of a computation that hands out `n` inodes. -/
abbrev Hands {α : Type} (m : Lio α) (t : State × List Access) (n : ℕ) : Prop :=
  Sat m t anyStop fun _ u => Tracked u ∧ u.1.freeinode = t.1.freeinode + n

theorem plain_hands {α : Type} {m : Hio α} (keeps : Keeps m) (tracked : Tracked t) :
    Hands (plain m) t 0 := by
  refine Sat.zoom ((keeps t.1).mono fun _ s' same => ?_)
  exact ⟨⟨same ▸ tracked.positive, by simpa [same] using tracked.exactly⟩, same⟩

/-- A further note about an inode handed out before. -/
theorem Tracked.again (tracked : Tracked t) (low : 1 ≤ inum) (high : inum < t.1.freeinode) :
    Tracked (t.1, .inode (sector (IBLOCK inum sb)) :: t.2) := by
  refine ⟨tracked.positive, fun a => ?_⟩
  rw [List.mem_cons, tracked.exactly a]
  constructor
  · rintro (rfl | old)
    · exact ⟨inum, low, high, .inr rfl⟩
    · exact old
  · exact .inr

theorem winode_hands (ip : Dinode) (tracked : Tracked t) (low : 1 ≤ inum)
    (high : inum < t.1.freeinode) : Hands (Noted.winode inum ip) t 0 := by
  unfold Noted.winode
  refine Sat.bind (Sat.update (Q := fun _ u => _ = u) rfl) ?_
  rintro _ _ rfl
  exact plain_hands (keeps_winode inum ip) (tracked.again low high)

theorem rinode_hands (tracked : Tracked t) (low : 1 ≤ inum) (high : inum < t.1.freeinode) :
    Hands (Noted.rinode inum) t 0 := by
  unfold Noted.rinode
  refine Sat.bind (Sat.update (Q := fun _ u => _ = u) rfl) ?_
  rintro _ _ rfl
  exact plain_hands (keeps_rinode inum) (tracked.again low high)

/-- The counter and the notes move on together. -/
theorem Tracked.next (tracked : Tracked t) :
    Tracked ({ t.1 with freeinode := t.1.freeinode + 1 },
      .inode (sector (IBLOCK t.1.freeinode sb)) :: .alloc t.1.freeinode :: t.2) := by
  have positive := tracked.positive
  refine ⟨by simp, fun a => ?_⟩
  rw [List.mem_cons, List.mem_cons, tracked.exactly a]
  constructor
  · rintro (rfl | rfl | ⟨inum, low, high, about⟩)
    · exact ⟨_, positive, Nat.lt_succ_self _, .inr rfl⟩
    · exact ⟨_, positive, Nat.lt_succ_self _, .inl rfl⟩
    · exact ⟨inum, low, Nat.lt_succ_of_lt high, about⟩
  · rintro ⟨inum, low, high, about⟩
    rcases Nat.lt_succ_iff_lt_or_eq.mp high with below | rfl
    · exact .inr (.inr ⟨inum, low, below, about⟩)
    · rcases about with rfl | rfl
      · exact .inr (.inl rfl)
      · exact .inl rfl

theorem ialloc_hands (type : ℕ) (tracked : Tracked t) :
    Sat (Noted.ialloc type) t anyStop fun inum u =>
      inum = t.1.freeinode ∧ Tracked u ∧ u.1.freeinode = t.1.freeinode + 1 := by
  unfold Noted.ialloc Noted.winode
  refine Sat.bind (Sat.zoom (Q := fun s u => t.1 = s ∧ t = u) (Sat.gets ⟨rfl, rfl⟩)) ?_
  rintro _ _ ⟨rfl, rfl⟩
  refine Sat.bind (Sat.zoom (Q := fun _ u => _ = u) (Sat.update rfl)) ?_
  rintro _ _ rfl
  refine Sat.bind (Sat.update (Q := fun _ u => _ = u) rfl) ?_
  rintro _ _ rfl
  refine Sat.bind (Q := fun _ u => Tracked u ∧ u.1.freeinode = t.1.freeinode + 1) ?_ ?_
  · refine Sat.bind (Sat.update (Q := fun _ u => _ = u) rfl) ?_
    rintro _ _ rfl
    exact plain_hands (keeps_winode _ _) tracked.next
  rintro _ u ⟨after, count⟩
  exact Sat.pure ⟨rfl, after, count⟩

theorem iappend_hands (p : List Byte) (tracked : Tracked t) (low : 1 ≤ inum)
    (high : inum < t.1.freeinode) : Hands (Noted.iappend inum p) t 0 := by
  refine Sat.bind (rinode_hands tracked low high) ?_
  rintro din t₁ ⟨tracked₁, count₁⟩
  refine Sat.bind (plain_hands (keeps_iappendLoop _ _ _ _) tracked₁) ?_
  rintro result t₂ ⟨tracked₂, count₂⟩
  refine (winode_hands _ tracked₂ low (by omega)).mono ?_
  rintro _ t₃ ⟨tracked₃, count₃⟩
  exact ⟨tracked₃, by omega⟩

theorem copyFile_hands (chunks : List (List Byte)) (tracked : Tracked t) (low : 1 ≤ inum)
    (high : inum < t.1.freeinode) : Hands (Noted.copyFile inum chunks) t 0 := by
  induction chunks generalizing t with
  | nil => exact Sat.pure ⟨tracked, rfl⟩
  | cons chunk rest ih =>
    refine Sat.bind (iappend_hands chunk tracked low high) ?_
    rintro _ t₁ ⟨tracked₁, count₁⟩
    refine (ih tracked₁ (by omega)).mono ?_
    rintro _ t₂ ⟨tracked₂, count₂⟩
    exact ⟨tracked₂, by omega⟩

/-- Every file takes one inode. -/
theorem addFiles_hands (files : List Input) (tracked : Tracked t) (low : 1 ≤ inum)
    (high : inum < t.1.freeinode) : Hands (Noted.addFiles inum files) t files.length := by
  induction files generalizing t with
  | nil => exact Sat.pure ⟨tracked, rfl⟩
  | cons file rest ih =>
    unfold Noted.addFiles
    cases file.reads with
    | none => exact Sat.throw trivial
    | some chunks =>
      refine Sat.bind (ialloc_hands T_FILE tracked) ?_
      rintro new t₁ ⟨rfl, tracked₁, count₁⟩
      refine Sat.bind (iappend_hands _ tracked₁ low (by omega)) ?_
      rintro _ t₂ ⟨tracked₂, count₂⟩
      refine Sat.bind (copyFile_hands chunks tracked₂ tracked.positive (by omega)) ?_
      rintro _ t₃ ⟨tracked₃, count₃⟩
      refine (ih tracked₃ (by omega)).mono ?_
      rintro _ t₄ ⟨tracked₄, count₄⟩
      exact ⟨tracked₄, by rw [List.length_cons]; omega⟩

theorem build_hands (files : List Input) (tracked : Tracked t) :
    Hands (Noted.build files) t (files.length + 1) := by
  refine Sat.bind (plain_hands (keeps_wsect _ _) tracked) ?_
  rintro _ t₁ ⟨tracked₁, count₁⟩
  refine Sat.bind (ialloc_hands T_DIR tracked₁) ?_
  rintro root t₂ ⟨rfl, tracked₂, count₂⟩
  have low := tracked₁.positive
  refine Sat.bind (Sat.stopIf (Q := fun _ u => t₂ = u) (fun _ => trivial) fun _ => rfl) ?_
  rintro _ _ rfl
  refine Sat.bind (iappend_hands _ tracked₂ low (by omega)) ?_
  rintro _ t₃ ⟨tracked₃, count₃⟩
  refine Sat.bind (iappend_hands _ tracked₃ low (by omega)) ?_
  rintro _ t₄ ⟨tracked₄, count₄⟩
  refine Sat.bind (addFiles_hands files tracked₄ low (by omega)) ?_
  rintro _ t₅ ⟨tracked₅, count₅⟩
  refine Sat.bind (rinode_hands tracked₅ low (by omega)) ?_
  rintro din t₆ ⟨tracked₆, count₆⟩
  refine Sat.bind (winode_hands _ tracked₆ low (by omega)) ?_
  rintro _ t₇ ⟨tracked₇, count₇⟩
  refine Sat.bind (plain_hands (.gets id) tracked₇) ?_
  rintro s t₈ ⟨tracked₈, count₈⟩
  refine (plain_hands (keeps_balloc _) tracked₈).mono ?_
  rintro _ t₉ ⟨tracked₉, count₉⟩
  exact ⟨tracked₉, by omega⟩

/-- The number of zeroed blocks is a variable here, so that no block is zeroed to look at it. -/
theorem zeroed_hands (n : ℕ) (files : List Input) :
    Sat (plain (zeroLoop n 0) >>= fun _ => Noted.build files) (start, []) anyStop fun _ u =>
      Tracked u ∧ u.1.freeinode = files.length + 2 := by
  have tracked : Tracked (start, []) := by
    refine ⟨le_refl 1, fun a => ⟨by simp, ?_⟩⟩
    rintro ⟨inum, low, high, -⟩
    exact absurd high (not_lt.mpr low)
  refine Sat.bind (plain_hands (keeps_zeroLoop n 0) tracked) ?_
  rintro _ t₁ ⟨tracked₁, count₁⟩
  refine (build_hands files tracked₁).mono ?_
  rintro _ t₂ ⟨tracked₂, count₂⟩
  refine ⟨tracked₂, ?_⟩
  rw [count₂, count₁]
  simp only [start]
  omega

end Notes

section Capacity

variable {files : List Input} {s : State}

/-- The inode numbers stay below `sb.ninodes` and the inodes in the inode blocks. -/
structure InTable (log : List Access) : Prop where
  numbers : ∀ inum, .alloc inum ∈ log → inum < sb.ninodes
  blocks : ∀ b, .inode b ∈ log → sb.inodestart ≤ b ∧ b < sb.bmapstart

/-- `mkfs` fails, or it keeps to the inode table. -/
def Capacity (files : List Input) : Prop :=
  (∃ e, run files = .error e) ∨ ∃ log, accesses files = .ok log ∧ InTable log

theorem noted_hands {u : Unit} {t : State × List Access}
    (noted : Noted.main files (start, []) = .ok (u, t)) :
    Tracked t ∧ t.1.freeinode = files.length + 2 := by
  unfold Noted.main at noted
  generalize FSSIZE = n at noted
  exact (zeroed_hands n files).ok noted

theorem run_noted {u : Unit} (returned : main files start = .ok (u, s)) :
    ∃ log, Noted.main files (start, []) = .ok (u, s, log) := by
  have erases := erases_main files
  generalize Noted.main files = t at *
  generalize main files = m at *
  exact erases.ok returned

/-- A run that exits with 0 notes exactly the inodes of the root and of the files. -/
theorem accesses_ok (exits : run files = .ok s) : ∃ log, accesses files = .ok log ∧
    ∀ a, a ∈ log ↔ ∃ inum, 1 ≤ inum ∧ inum < files.length + 2 ∧ a.about inum := by
  obtain ⟨u, returned⟩ := run_returned exits
  obtain ⟨log, noted⟩ := run_noted returned
  obtain ⟨tracked, count⟩ := noted_hands noted
  refine ⟨log, ?_, fun a => ?_⟩
  · unfold accesses
    generalize Noted.main files (start, []) = r at noted
    subst noted
    rfl
  · rw [tracked.exactly a, count]

theorem sector_IBLOCK {inum : ℕ} (small : inum < ninodeblocks * IPB) :
    sector (IBLOCK inum sb) = IBLOCK inum sb := by
  have bounds := IBLOCK_bounds small
  have stop : sb.bmapstart = 45 := rfl
  exact sector_eq (by omega)

/-- Of the runs that exit with 0, those with at most 198 files keep to the inode table. -/
theorem capacity_iff (files : List Input) (s : State) (exits : run files = .ok s) :
    Capacity files ↔ files.length ≤ NINODES - 2 := by
  obtain ⟨log, noted, exactly⟩ := accesses_ok exits
  have number : sb.ninodes = NINODES := rfl
  have count : NINODES = 200 := rfl
  constructor
  · rintro (⟨e, fails⟩ | ⟨log', same, table⟩)
    · rw [exits] at fails
      cases fails
    · obtain rfl : log = log' := by simpa [noted] using same
      have last := table.numbers (files.length + 1)
        ((exactly _).mpr ⟨_, by omega, by omega, .inl rfl⟩)
      omega
  · intro few
    have room : NINODES ≤ ninodeblocks * IPB := by decide
    refine .inr ⟨log, noted, fun inum member => ?_, fun b member => ?_⟩
    · obtain ⟨i, -, high, about⟩ := (exactly _).mp member
      obtain rfl : inum = i := by simpa [Access.about] using about
      omega
    · obtain ⟨i, -, high, about⟩ := (exactly _).mp member
      have small : i < ninodeblocks * IPB := by omega
      obtain rfl : b = IBLOCK i sb := by simpa [Access.about, sector_IBLOCK small] using about
      exact IBLOCK_bounds small

theorem capacity_hi : Capacity [hi] := by
  obtain ⟨s, exits⟩ := run_small [hi] (by decide) (by decide) (by decide)
  exact (capacity_iff [hi] s exits).mpr (by decide)

/-- Past 206 files an inode is written over the bitmap, and `mkfs` does not notice. -/
theorem overwrites_bitmap (many : ninodeblocks * IPB - 2 < files.length) (exits : run files = .ok s) :
    ∃ log, accesses files = .ok log ∧ .inode sb.bmapstart ∈ log := by
  obtain ⟨log, noted, exactly⟩ := accesses_ok exits
  have total : ninodeblocks * IPB = 208 := rfl
  refine ⟨log, noted, (exactly _).mpr ⟨208, by omega, by omega, .inr ?_⟩⟩
  have block : IBLOCK 208 sb = sb.bmapstart := rfl
  rw [block, sector_eq (by decide)]

/-- 199 empty files: one more than the inode table of the superblock holds. -/
def crowd : List Input := List.replicate 199 (emptyFile 0)

/-- `mkfs` exits with 0, and the last file has an inode number outside the table. -/
theorem crowd_overflows : (∃ s, run crowd = .ok s) ∧ ¬ Capacity crowd := by
  have length : crowd.length = 199 := List.length_replicate
  have empty : ∀ file ∈ crowd, file = emptyFile 0 := fun file member => List.eq_of_mem_replicate member
  have exits : ∃ s, run crowd = .ok s := by
    refine run_small crowd ?_ (fun file member => ?_) fun file member => ?_
    · rw [length]
      decide
    · rw [empty file member]
      decide
    · rw [empty file member]
      decide
  obtain ⟨s, returned⟩ := exits
  obtain ⟨log, noted, exactly⟩ := accesses_ok returned
  refine ⟨⟨s, returned⟩, ?_⟩
  rintro (⟨e, fails⟩ | ⟨log', same, table⟩)
  · rw [returned] at fails
    cases fails
  · obtain rfl : log = log' := by simpa [noted] using same
    have last := table.numbers 200 ((exactly _).mpr ⟨200, by decide, by rw [length]; decide, .inl rfl⟩)
    exact absurd last (by decide)

end Capacity

end HaloOS.Mkfs
