import HaloOS.Mkfs.Volume

/-! What `mkfs` leaves on the image when it exits with 0: the root directory, the files
in the order of the arguments, and a bitmap of the blocks in use. -/

namespace HaloOS.Mkfs

open Lib

variable {table : ℕ → Dinode} {contents : ℕ → List Byte} {kinds : ℕ → ℕ} {places : List Place}
  {s s' : State} {i : ℕ} {files : List Input}

def Input.content (file : Input) : List Byte := (file.reads.getD []).flatten

/-- Names and inode numbers in the order of the root directory. -/
def entries (files : List Input) : List (List Byte × ℕ) :=
  ([0x2e], ROOTINO) :: ([0x2e, 0x2e], ROOTINO) ::
    files.mapIdx fun j file => (shortname file.arg, j + 2)

def rootBytes (files : List Input) : List Byte :=
  (entries files).flatMap fun entry => dirent entry.1 entry.2

/-- The contents of every inode of the image. -/
def contentsOf (files : List Input) (i : ℕ) : List Byte :=
  if i = ROOTINO then rootBytes files
  else if 2 ≤ i then (files[i - 2]?.map Input.content).getD [] else []

def kindsOf (files : List Input) (i : ℕ) : ℕ :=
  if i = ROOTINO then T_DIR else if 2 ≤ i ∧ i < files.length + 2 then T_FILE else 0

theorem length_dirent (name : List Byte) (inum : ℕ) : (dirent name inum).length = 16 := by
  simp [dirent, DIRSIZ]

theorem length_entries (files : List Input) : (entries files).length = files.length + 2 := by
  simp [entries]

theorem length_rootBytes (files : List Input) :
    (rootBytes files).length = 16 * (files.length + 2) := by
  have each : ∀ l : List (List Byte × ℕ),
      (l.flatMap fun entry => dirent entry.1 entry.2).length = 16 * l.length := by
    intro l
    induction l with
    | nil => rfl
    | cons entry rest ih =>
      rw [List.flatMap_cons, List.length_append, length_dirent, ih, List.length_cons]
      omega
  rw [rootBytes, each, length_entries]

/-- One more file adds an entry to the root directory and an inode. -/
theorem contentsOf_append (files : List Input) (file : Input) :
    contentsOf (files ++ [file]) = Function.update (Function.update (contentsOf files) ROOTINO
      (contentsOf files ROOTINO ++ dirent (shortname file.arg) (files.length + 2)))
      (files.length + 2) file.content := by
  funext i
  by_cases last : i = files.length + 2
  · subst last
    have other : files.length + 2 ≠ ROOTINO := by simp only [ROOTINO]; omega
    rw [Function.update_self, contentsOf, if_neg other, if_pos (by omega)]
    simp
  · rw [Function.update_of_ne last]
    by_cases root : i = ROOTINO
    · subst root
      rw [Function.update_self]
      simp [contentsOf, rootBytes, entries, List.mapIdx_append]
    · rw [Function.update_of_ne root, contentsOf, contentsOf, if_neg root, if_neg root]
      by_cases file : 2 ≤ i
      · rw [if_pos file, if_pos file]
        by_cases inside : i - 2 < files.length
        · rw [List.getElem?_append_left inside]
        · rw [List.getElem?_eq_none (by simp; omega), List.getElem?_eq_none (by omega)]
      · rw [if_neg file, if_neg file]

theorem kindsOf_append (files : List Input) (file : Input) :
    kindsOf (files ++ [file]) = Function.update (kindsOf files) (files.length + 2) T_FILE := by
  funext i
  by_cases last : i = files.length + 2
  · subst last
    simp [kindsOf, ROOTINO]
  · rw [Function.update_of_ne last]
    simp only [kindsOf, List.length_append, List.length_singleton]
    by_cases root : i = ROOTINO
    · rw [if_pos root, if_pos root]
    · rw [if_neg root, if_neg root]
      by_cases file : 2 ≤ i ∧ i < files.length + 2
      · rw [if_pos file, if_pos (by omega)]
      · rw [if_neg file, if_neg (by omega)]

theorem lengths_le_append (files : List Input) (file : Input) (i : ℕ) :
    lengths (contentsOf files) i ≤ lengths (contentsOf (files ++ [file])) i := by
  rw [contentsOf_append, lengths_update, lengths_update]
  by_cases last : i = files.length + 2
  · subst last
    have none : contentsOf files (files.length + 2) = [] := by
      have other : files.length + 2 ≠ ROOTINO := by simp only [ROOTINO]; omega
      rw [contentsOf, if_neg other, if_pos (by omega), List.getElem?_eq_none (by omega)]
      rfl
    simp [lengths, none]
  · rw [Function.update_of_ne last]
    by_cases root : i = ROOTINO
    · subst root
      rw [Function.update_self, List.length_append]
      simp [lengths]
    · rw [Function.update_of_ne root]

theorem lengths_le (files rest : List Input) (i : ℕ) :
    lengths (contentsOf files) i ≤ lengths (contentsOf (files ++ rest)) i := by
  induction rest generalizing files with
  | nil => simp
  | cons file rest ih =>
    have step := ih (files ++ [file])
    rw [List.append_assoc, List.singleton_append] at step
    exact le_trans (lengths_le_append files file i) step

theorem Room.mono {extent target : ℕ → ℕ} (room : Room target) (le : ∀ i, extent i ≤ target i) :
    Room extent where
  small := fun i => le_trans (le i) (room.small i)
  few := fun l nodup placed => room.few l nodup fun π member => (placed π member).mono le

theorem copyFile_spec (chunks : List (List Byte)) (volume : Volume s table kinds contents places)
    (inside : i < ninodeblocks * IPB) :
    Sat (copyFile i chunks) s
      (fun _ => ¬ Room (lengths (Function.update contents i (contents i ++ chunks.flatten))))
      fun _ s' => s'.freeinode = s.freeinode ∧ ∃ table' places',
        Volume s' table' kinds (Function.update contents i (contents i ++ chunks.flatten)) places' := by
  induction chunks generalizing s table contents places with
  | nil =>
    rw [List.flatten_nil, List.append_nil, Function.update_eq_self]
    exact Sat.pure ⟨rfl, table, places, volume⟩
  | cons chunk rest ih =>
    unfold copyFile
    rw [List.flatten_cons, ← update_append]
    refine Sat.bind ((iappend_spec volume inside).weaken fun _ full room => full (room.mono ?_)) ?_
    · intro j
      rw [update_append, lengths_update, lengths_update]
      by_cases here : j = i
      · subst here
        rw [Function.update_self, Function.update_self]
        simp only [List.length_append]
        omega
      · rw [Function.update_of_ne here, Function.update_of_ne here]
    rintro _ s₁ ⟨freeinode₁, table₁, places₁, volume₁⟩
    refine (ih volume₁).mono ?_
    rintro _ s₂ ⟨freeinode₂, rest₂⟩
    exact ⟨freeinode₂.trans freeinode₁, rest₂⟩

/-- The loop over the files, after those in `files`. -/
theorem addFiles_spec (rest : List Input)
    (volume : Volume s table (kindsOf files) (contentsOf files) places)
    (next : s.freeinode = files.length + 2)
    (few : (files ++ rest).length + 2 ≤ ninodeblocks * IPB) :
    Sat (addFiles ROOTINO rest) s
      (fun _ => ¬ Room (lengths (contentsOf (files ++ rest))) ∨ ∃ file ∈ rest, file.reads = none)
      fun _ s' => ∃ table' places',
        Volume s' table' (kindsOf (files ++ rest)) (contentsOf (files ++ rest)) places' := by
  induction rest generalizing s table files places with
  | nil =>
    rw [List.append_nil]
    exact Sat.pure ⟨table, places, volume⟩
  | cons file rest ih =>
    have count : files.length + 2 < ninodeblocks * IPB := by
      simp only [List.length_append, List.length_cons] at few
      omega
    have root : ROOTINO < ninodeblocks * IPB := by decide
    have other : files.length + 2 ≠ ROOTINO := by simp only [ROOTINO]; omega
    have empty : contentsOf files (files.length + 2) = [] := by
      rw [contentsOf, if_neg other, if_pos (by omega), List.getElem?_eq_none (by omega)]
      rfl
    have later := lengths_le (files ++ [file]) rest
    rw [List.append_assoc, List.singleton_append] at later
    unfold addFiles
    cases opened : file.reads with
    | none => exact Sat.throw (.inr ⟨file, List.mem_cons_self, opened⟩)
    | some chunks =>
      have content : file.content = chunks.flatten := by simp [Input.content, opened]
      refine Sat.bind (ialloc_spec volume (by omega) (by rw [next]; exact empty) (by decide)
        (by decide)) ?_
      rintro _ s₁ ⟨rfl, freeinode₁, table₁, volume₁⟩
      rw [next] at volume₁ freeinode₁ ⊢
      refine Sat.bind ((iappend_spec volume₁ root).weaken fun _ full => .inl fun room =>
        full (room.mono fun j => le_trans ?_ (later j))) ?_
      · rw [contentsOf_append, lengths_update _ (files.length + 2)]
        by_cases here : j = files.length + 2
        · subst here
          rw [lengths_update, Function.update_of_ne other, Function.update_self]
          simp [lengths, empty]
        · rw [Function.update_of_ne here]
      rintro _ s₂ ⟨freeinode₂, table₂, places₂, volume₂⟩
      have target : Function.update (Function.update (contentsOf files) ROOTINO
          (contentsOf files ROOTINO ++ dirent (shortname file.arg) (files.length + 2)))
          (files.length + 2) (Function.update (contentsOf files) ROOTINO
            (contentsOf files ROOTINO ++ dirent (shortname file.arg) (files.length + 2))
            (files.length + 2) ++ chunks.flatten) = contentsOf (files ++ [file]) := by
        rw [contentsOf_append, Function.update_of_ne other, empty, content, List.nil_append]
      have copied := copyFile_spec chunks volume₂ count
      rw [target] at copied
      refine Sat.bind (copied.weaken fun _ full => .inl fun room => full (room.mono later)) ?_
      rintro _ s₃ ⟨freeinode₃, table₃, places₃, volume₃⟩
      rw [← kindsOf_append] at volume₃
      have again := ih volume₃ (by rw [freeinode₃, freeinode₂, freeinode₁]; simp) (by simpa using few)
      rw [List.append_assoc, List.singleton_append] at again
      refine again.weaken fun _ reason => reason.imp_right ?_
      rintro ⟨f, member, bad⟩
      exact ⟨f, List.mem_cons_of_mem _ member, bad⟩

/-- The finished image. -/
structure Built (files : List Input) (s : State) (table : ℕ → Dinode) (places : List Place) :
    Prop where
  holds : Holds s table (lengths (contentsOf files)) (contentsOf files) places
  few : nmeta + places.length ≤ FSSIZE
  filed : ∀ b ∈ s.filed, nmeta ≤ b
  boot : s.image.data 0 = fun _ => 0
  super : s.image.data 1 = sbByte sb
  log : ∀ b, 2 ≤ b → b < sb.inodestart → s.image.data b = fun _ => 0
  inodes : ∀ i < ninodeblocks * IPB, ∀ k < 64,
    s.image.data (IBLOCK i sb) (64 * (i % IPB) + k) = (table i).byte k
  bitmap : s.image.data sb.bmapstart = bitmap s.freeblock
  fits : ∀ i, (table i).Fits
  small : ∀ i, (contentsOf files i).length ≤ MAXFILE * BSIZE
  kind : ∀ i, (table i).type = kindsOf files i ∧ (table i).major = 0 ∧ (table i).minor = 0 ∧
    (table i).nlink = if kindsOf files i = 0 then 0 else 1
  root : (table ROOTINO).size = ((rootBytes files).length / BSIZE + 1) * BSIZE
  sizes : ∀ i ≠ ROOTINO, (table i).size = (contentsOf files i).length

theorem zeroLoop_spec {n i : ℕ} {E : Abort → Prop} (image : s.image = ⟨i, fun _ _ => 0⟩)
    (small : i + n ≤ 2 ^ 22) :
    Sat (zeroLoop n i) s E fun _ s' => { s with image := ⟨i + n, fun _ _ => 0⟩ } = s' := by
  induction n generalizing i s with
  | zero =>
    refine Sat.pure ?_
    rw [Nat.add_zero, ← image]
  | succ n ih =>
    unfold zeroLoop
    refine Sat.bind (Sat.update (Q := fun _ t => { s with image := ⟨i + 1, fun _ _ => 0⟩ } = t) ?_) ?_
    · have same : Function.update (fun _ _ => 0) i (fun _ => 0) = (fun _ _ => 0 : ℕ → Block) :=
        Function.update_eq_self i (fun _ _ => 0)
      simp only [image, sector_eq (show i < 2 ^ 22 by omega), same]
      rw [max_eq_right (Nat.le_succ i)]
    rintro _ _ rfl
    refine (ih rfl (by omega)).mono ?_
    rintro _ _ rfl
    rw [show i + 1 + n = i + (n + 1) by omega]

/-- The zeroed image with its superblock. -/
def blank : State where
  image := ⟨FSSIZE, Function.update (fun _ _ => 0) 1 (sbByte sb)⟩
  freeinode := 1
  freeblock := nmeta
  filed := []

theorem blank_zero {b : ℕ} (other : b ≠ 1) : blank.image.data b = fun _ => 0 := by
  simp [blank, Function.update_of_ne other]

theorem byte_zero (k : ℕ) : ({} : Dinode).byte k = 0 := by
  have none : ∀ j, leByte 0 j = 0 := by
    intro j
    simp [leByte]
  simp [Dinode.byte, none]

theorem fits_zero : ({} : Dinode).Fits :=
  ⟨by simp [SHORT], by simp [SHORT], by simp [SHORT], by simp [SHORT], by simp [UINT], by simp [UINT]⟩

theorem blocks_blank : Blocks (fun _ => {}) blank.image.data (fun _ => []) [] where
  nodup := List.nodup_nil
  addrs := by
    intro π valid
    rw [number_of_not_mem (by simp)]
    cases π <;> simp [stored]
  bytes := by simp
  zero := by
    intro b beyond
    have above : 1 < nmeta := by decide
    exact blank_zero (by omega)

theorem areas_blank : Areas blank (fun _ => {}) where
  boot := blank_zero (by decide)
  super := by simp [blank]
  log := fun b low _ => blank_zero (by omega)
  inodes := by
    intro i inside k small
    have bounds := IBLOCK_bounds inside
    have above : 1 < sb.inodestart := by decide
    rw [blank_zero (by omega), byte_zero]
  bitmap := blank_zero (by decide)

theorem volume_blank : Volume blank (fun _ => {}) (fun _ => 0) (fun _ => []) [] where
  holds := ⟨rfl, rfl, blocks_blank, fun π => by cases π <;> simp [Placed, lengths]⟩
  few := by decide
  areas := areas_blank
  filed := by simp [blank]
  fits := fun _ => fits_zero
  sizes := fun _ => rfl
  small := fun _ => Nat.zero_le _
  kind := fun _ => ⟨rfl, rfl, rfl, rfl⟩

theorem contentsOf_nil : contentsOf [] = Function.update (Function.update (fun _ => []) ROOTINO
    (dirent [0x2e] ROOTINO)) ROOTINO (dirent [0x2e] ROOTINO ++ dirent [0x2e, 0x2e] ROOTINO) := by
  rw [Function.update_idem]
  funext i
  by_cases root : i = ROOTINO
  · subst root
    simp [contentsOf, rootBytes, entries]
  · rw [Function.update_of_ne root, contentsOf, if_neg root]
    simp

theorem kindsOf_nil : kindsOf [] = Function.update (fun _ => 0) ROOTINO T_DIR := by
  funext i
  by_cases root : i = ROOTINO
  · subst root
    simp [kindsOf]
  · rw [Function.update_of_ne root, kindsOf, if_neg root, if_neg]
    simp only [List.length_nil]
    omega

theorem balloc_spec {used : ℕ} {E : Abort → Prop} (size : s.image.size = FSSIZE)
    (few : used ≤ FSSIZE) :
    Sat (balloc used) s E fun _ s' => s.put sb.bmapstart (bitmap used) = s' := by
  unfold balloc
  refine Sat.bind (Sat.stopIf (Q := fun _ t => s = t) (fun exceeds => ?_) fun _ => rfl) ?_
  · simp only [FSSIZE, BSIZE] at few exceeds
    omega
  rintro _ _ rfl
  exact wsect_spec size (by decide)

/-- The last two writes: the rounded size of the root directory and the bitmap. -/
theorem Volume.finish {din : Dinode}
    (volume : Volume s table (kindsOf files) (contentsOf files) places)
    (same : din.Same (table ROOTINO)) {size : ℕ} (fit : size < UINT)
    (rounded : size = ((rootBytes files).length / BSIZE + 1) * BSIZE) :
    Built files ((s.put (IBLOCK ROOTINO sb) (({ din with size } : Dinode).write (ROOTINO % IPB)
        (s.image.data (IBLOCK ROOTINO sb)))).put sb.bmapstart (bitmap s.freeblock))
      (Function.update table ROOTINO { din with size }) places := by
  have root : ROOTINO < ninodeblocks * IPB := by decide
  have holds : Holds s (Function.update table ROOTINO { din with size })
      (lengths (contentsOf files)) (contentsOf files) places := by
    refine { volume.holds with blocks := volume.holds.blocks.congr fun j k le => ?_ }
    by_cases here : j = ROOTINO
    · subst here
      rw [Function.update_self]
      exact same.addrs k le
    · rw [Function.update_of_ne here]
  have areas := volume.areas.winode root { din with size }
  have used : (s.put (IBLOCK ROOTINO sb) (({ din with size } : Dinode).write (ROOTINO % IPB)
    (s.image.data (IBLOCK ROOTINO sb)))).freeblock = s.freeblock := rfl
  have filed : ∀ b ∈ (s.put (IBLOCK ROOTINO sb) (({ din with size } : Dinode).write (ROOTINO % IPB)
    (s.image.data (IBLOCK ROOTINO sb)))).filed, nmeta ≤ b := volume.filed
  have held := holds.put root
    (({ din with size } : Dinode).write (ROOTINO % IPB) (s.image.data (IBLOCK ROOTINO sb)))
  generalize s.put (IBLOCK ROOTINO sb) (({ din with size } : Dinode).write (ROOTINO % IPB)
    (s.image.data (IBLOCK ROOTINO sb))) = s₁ at areas held used filed
  rw [← used]
  have start := bmapstart_lt
  refine ⟨⟨held.size, held.freeblock, held.blocks.below fun b above => put_of_ne (by omega),
    held.full⟩, volume.few, filed, ?_, ?_, ?_, ?_, ?_, ?_, volume.small, ?_, ?_, ?_⟩
  · exact (put_of_ne (by decide)).trans areas.boot
  · exact (put_of_ne (by decide)).trans areas.super
  · intro b low high
    have order : sb.inodestart ≤ sb.bmapstart := by decide
    exact (put_of_ne (by omega)).trans (areas.log b low high)
  · intro i inside k small
    have bounds := IBLOCK_bounds inside
    rw [put_of_ne (by omega)]
    exact areas.inodes i inside k small
  · simp [State.put]
  · intro i
    by_cases here : i = ROOTINO
    · subst here
      have old := volume.fits ROOTINO
      rw [Function.update_self]
      exact ⟨same.type ▸ old.type, same.major ▸ old.major, same.minor ▸ old.minor,
        same.nlink ▸ old.nlink, fit, fun k le => same.addrs k le ▸ old.addrs k le⟩
    · rw [Function.update_of_ne here]
      exact volume.fits i
  · intro i
    by_cases here : i = ROOTINO
    · subst here
      obtain ⟨type, major, minor, nlink⟩ := volume.kind ROOTINO
      rw [Function.update_self]
      exact ⟨same.type.trans type, same.major.trans major, same.minor.trans minor,
        same.nlink.trans nlink⟩
    · rw [Function.update_of_ne here]
      exact volume.kind i
  · rw [Function.update_self]
    exact rounded
  · intro i other
    rw [Function.update_of_ne other]
    exact volume.sizes i

/-- `main` after the image has been zeroed. -/
theorem build_spec (fresh : s = ⟨⟨FSSIZE, fun _ _ => 0⟩, 1, nmeta, []⟩)
    (few : files.length + 2 ≤ ninodeblocks * IPB) :
    Sat (build files) s
      (fun _ => ¬ Room (lengths (contentsOf files)) ∨ ∃ file ∈ files, file.reads = none)
      fun _ s' => ∃ table places, Built files s' table places := by
  have root : ROOTINO < ninodeblocks * IPB := by decide
  have later := lengths_le [] files
  rw [List.nil_append] at later
  have size : s.image.size = FSSIZE := by rw [fresh]
  unfold build
  refine Sat.bind (wsect_spec size (by decide)) ?_
  rintro _ s₀ written
  obtain rfl : blank = s₀ := by
    rw [← written, fresh]
    rfl
  refine Sat.bind (ialloc_spec volume_blank root rfl (by decide) (by decide)) ?_
  rintro _ s₁ ⟨rfl, freeinode₁, table₁, volume₁⟩
  have number : blank.freeinode = ROOTINO := rfl
  rw [number] at volume₁ freeinode₁ ⊢
  rw [← kindsOf_nil] at volume₁
  refine Sat.bind (Sat.stopIf (Q := fun _ t => s₁ = t) (fun bad => absurd rfl bad) fun _ => rfl) ?_
  rintro _ _ rfl
  have start₁ : ∀ j, lengths (Function.update (fun _ => []) ROOTINO (dirent [0x2e] ROOTINO)) j ≤
      lengths (contentsOf files) j := by
    intro j
    refine le_trans ?_ (later j)
    rw [contentsOf_nil, lengths_update, lengths_update]
    by_cases here : j = ROOTINO
    · subst here
      rw [Function.update_self, Function.update_self, List.length_append]
      omega
    · rw [Function.update_of_ne here, Function.update_of_ne here]
      simp [lengths, Function.update_of_ne here]
  refine Sat.bind ((iappend_spec volume₁ root).weaken fun _ full => .inl fun room =>
    full (room.mono start₁)) ?_
  rintro _ s₂ ⟨freeinode₂, table₂, places₂, volume₂⟩
  rw [List.nil_append] at volume₂
  have target : Function.update (Function.update (fun _ => []) ROOTINO (dirent [0x2e] ROOTINO)) ROOTINO
      (Function.update (fun _ => []) ROOTINO (dirent [0x2e] ROOTINO) ROOTINO ++
        dirent [0x2e, 0x2e] ROOTINO) = contentsOf [] := by
    rw [Function.update_self, contentsOf_nil]
  have appended := iappend_spec (p := dirent [0x2e, 0x2e] ROOTINO) volume₂ root
  rw [target] at appended
  refine Sat.bind (appended.weaken fun _ full => .inl fun room => full (room.mono later)) ?_
  rintro _ s₃ ⟨freeinode₃, table₃, places₃, volume₃⟩
  have added := addFiles_spec files volume₃
    (by rw [freeinode₃, freeinode₂, freeinode₁]; rfl) (by simpa using few)
  rw [List.nil_append] at added
  refine Sat.bind added ?_
  rintro _ s₄ ⟨table₄, places₄, volume₄⟩
  refine Sat.bind (rinode_spec volume₄.areas (volume₄.fits _) volume₄.holds.size root) ?_
  rintro din _ ⟨rfl, same⟩
  have count : din.size = (rootBytes files).length := by
    rw [same.size, volume₄.sizes]
    simp [contentsOf]
  have short : (rootBytes files).length ≤ 3328 := by
    have total : ninodeblocks * IPB = 208 := rfl
    rw [length_rootBytes]
    omega
  rw [count]
  generalize rounded : ((rootBytes files).length / BSIZE + 1) * BSIZE = size'
  have fit : size' < UINT := by
    rw [← rounded]
    simp only [BSIZE, UINT]
    omega
  rw [Nat.mod_eq_of_lt fit]
  refine Sat.bind (winode_spec volume₄.holds.size root) ?_
  rintro _ s₅ rfl
  refine Sat.bind (Sat.gets (Q := fun a t => _ = a ∧ _ = t) ⟨rfl, rfl⟩) ?_
  rintro _ _ ⟨rfl, rfl⟩
  have used : s₄.freeblock ≤ FSSIZE := by
    rw [volume₄.holds.freeblock]
    exact volume₄.few
  refine (balloc_spec (by exact volume₄.holds.size) (by exact used)).mono ?_
  rintro _ _ rfl
  exact ⟨_, places₄, volume₄.finish same fit rounded.symm⟩

theorem zeroed_spec {n : ℕ} {rest : Hio Unit} {E : Abort → Prop} {Q : Unit → State → Prop}
    (small : n ≤ 2 ^ 22) (after : Sat rest ⟨⟨n, fun _ _ => 0⟩, 1, nmeta, []⟩ E Q) :
    Sat (zeroLoop n 0 >>= fun _ => rest) start E Q := by
  have zeroes : Sat (zeroLoop n 0) start E
      fun _ s' => { start with image := ⟨0 + n, fun _ _ => 0⟩ } = s' :=
    zeroLoop_spec rfl (by omega)
  refine Sat.bind zeroes ?_
  rintro _ _ rfl
  rw [Nat.zero_add]
  exact after

/-- The image that `mkfs` leaves when it exits with 0. -/
theorem main_ok {u : Unit} (few : files.length + 2 ≤ ninodeblocks * IPB)
    (returned : main files start = .ok (u, s)) : ∃ table places, Built files s table places := by
  have after := build_spec rfl few
  have limit : FSSIZE ≤ 2 ^ 22 := by simp [FSSIZE]
  unfold main at returned
  generalize FSSIZE = n at after limit returned
  exact (zeroed_spec limit after).ok returned

/-- `mkfs` stops early only when an argument cannot be opened or the image is full. -/
theorem main_error {e : Abort} (few : files.length + 2 ≤ ninodeblocks * IPB)
    (stopped : main files start = .error e) :
    ¬ Room (lengths (contentsOf files)) ∨ ∃ file ∈ files, file.reads = none := by
  have after := build_spec rfl few
  have limit : FSSIZE ≤ 2 ^ 22 := by simp [FSSIZE]
  unfold main at stopped
  generalize FSSIZE = n at after limit stopped
  exact (zeroed_spec limit after).error stopped

end HaloOS.Mkfs
