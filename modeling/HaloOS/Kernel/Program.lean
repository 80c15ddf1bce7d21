import HaloOS.Kernel.Arguments

/-! What a program finds of its file after `exec`, given that reading the file delivers its bytes. -/

namespace HaloOS

open Lib

variable {L : Layout} {own : ℕ → Owner} {l : List ℕ} {k k' : Kernel} {p : Fin NPROC} {t f N a off n count sz : ℕ}
  {data data' : Mem} {file : List Byte}

section Segments

/-- A program header that asks for memory: where its bytes are in the file and where they go. -/
structure Segment where
  off : ℕ
  vaddr : ℕ
  filesz : ℕ
  memsz : ℕ
  deriving DecidableEq, Repr

def Segment.Holds (s : Segment) (a : ℕ) : Prop := s.vaddr ≤ a ∧ a < s.vaddr + s.memsz

/-- No byte of memory belongs to both segments. -/
def Segment.Apart (s r : Segment) : Prop := ∀ a, s.Holds a → ¬ r.Holds a

instance : Std.Symm Segment.Apart := ⟨fun _ _ apart a one two => apart a two one⟩

/-- `n` bytes of a file. -/
def slice (file : List Byte) (off n : ℕ) : List Byte := (file.drop off).take n

/-- The `PT_LOAD` segments among `count` program headers from `off` on. -/
def segmentsFrom (file : List Byte) : ℕ → ℕ → List Segment
  | 0, _ => []
  | count + 1, off =>
    let ph := slice file off 56
    if field ph 0 4 = ELF_PROG_LOAD then
      ⟨field ph 8 8, field ph 16 8, field ph 32 8, field ph 40 8⟩ :: segmentsFrom file count (off + 56)
    else segmentsFrom file count (off + 56)

/-- The segments of a program. -/
def segments (file : List Byte) : List Segment := segmentsFrom file (field file 56 2) (field file 32 8)

/-- The highest end of a segment. -/
def highest (list : List Segment) (sz : ℕ) : ℕ := list.foldl (fun sz s => max sz (s.vaddr + s.memsz)) sz

/-- Memory after the segments of a list have been loaded. -/
def fileImage (file : List Byte) (list : List Segment) (data : Mem) : Mem :=
  list.foldl (fun data s => data.store s.vaddr (slice file s.off s.filesz)) data

theorem highest_cons (s : Segment) (list : List Segment) (sz : ℕ) :
    highest (s :: list) sz = highest list (max sz (s.vaddr + s.memsz)) := rfl

theorem fileImage_cons (file : List Byte) (s : Segment) (list : List Segment) (data : Mem) :
    fileImage file (s :: list) data = fileImage file list (data.store s.vaddr (slice file s.off s.filesz)) := rfl

/-- A file that `exec` can take for a program: what its headers name is in the file, and no byte of memory
belongs to two segments. -/
structure Elf (file : List Byte) : Prop where
  header : 64 ≤ file.length
  table : field file 32 8 + 56 * field file 56 2 ≤ file.length
  inside : ∀ s ∈ segments file, s.off + s.filesz ≤ file.length
  disjoint : (segments file).Pairwise Segment.Apart

theorem slice_length (inside : off + n ≤ file.length) : (slice file off n).length = n := by
  unfold slice
  rw [List.length_take, List.length_drop]
  omega

theorem slice_getD {j : ℕ} (inside : off + n ≤ file.length) (small : j < n) :
    some ((slice file off n).getD j 0) = file[off + j]? := by
  have there : off + j < file.length := by omega
  unfold slice
  rw [List.getD_eq_getElem?_getD, List.getElem?_take_of_lt small, List.getElem?_drop,
    List.getElem?_eq_getElem there, Option.getD_some]

/-- The header of a program is read from its first 64 bytes. -/
theorem field_slice (off n : ℕ) (inside : off + n ≤ 64) : field (slice file 0 64) off n = field file off n := by
  unfold field slice
  refine List.foldr_ext _ _ _ fun j member rest => ?_
  have small := List.mem_range.mp member
  have same : ((file.drop 0).take 64).getD (off + j) 0 = file.getD (off + j) 0 := by
    rw [List.drop_zero, List.getD_eq_getElem?_getD, List.getD_eq_getElem?_getD, List.getElem?_take_of_lt (by omega)]
  rw [same]

theorem le_highest (list : List Segment) (sz : ℕ) : sz ≤ highest list sz ∧
    ∀ s ∈ list, s.vaddr + s.memsz ≤ highest list sz := by
  induction list generalizing sz with
  | nil => exact ⟨le_refl _, fun s member => by cases member⟩
  | cons first list ih =>
    obtain ⟨above, rest⟩ := ih (max sz (first.vaddr + first.memsz))
    rw [highest_cons]
    refine ⟨by omega, fun s member => ?_⟩
    rcases List.mem_cons.mp member with rfl | member
    · omega
    · exact rest s member

/-- Bytes that no segment brings are as before. -/
theorem fileImage_outside {list : List Segment} (inside : ∀ s ∈ list, s.off + s.filesz ≤ file.length)
    (outside : ∀ s ∈ list, ¬ (s.vaddr ≤ a ∧ a < s.vaddr + s.filesz)) : fileImage file list data a = data a := by
  induction list generalizing data with
  | nil => rfl
  | cons s list ih =>
    have rest := @ih (data.store s.vaddr (slice file s.off s.filesz))
      (fun r member => inside r (List.mem_cons_of_mem _ member)) fun r member => outside r (List.mem_cons_of_mem _ member)
    rw [fileImage_cons, rest]
    refine Mem.store_of_not_mem _ ?_
    rw [slice_length (inside s List.mem_cons_self)]
    exact outside s List.mem_cons_self

/-- Every segment is there: the later ones do not reach it. -/
theorem fileImage_segment {list : List Segment} {s : Segment} {j : ℕ}
    (inside : ∀ s ∈ list, s.off + s.filesz ≤ file.length) (fits : ∀ s ∈ list, s.filesz ≤ s.memsz)
    (disjoint : list.Pairwise Segment.Apart) (member : s ∈ list) (small : j < s.filesz) :
    some (fileImage file list data (s.vaddr + j)) = file[s.off + j]? := by
  induction list generalizing data with
  | nil => cases member
  | cons first list ih =>
    obtain ⟨apart, disjoint⟩ := List.pairwise_cons.mp disjoint
    have inside' : ∀ s ∈ list, s.off + s.filesz ≤ file.length := fun r member => inside r (List.mem_cons_of_mem _ member)
    have fits' : ∀ s ∈ list, s.filesz ≤ s.memsz := fun r member => fits r (List.mem_cons_of_mem _ member)
    rcases List.mem_cons.mp member with rfl | member
    · have whole := inside s List.mem_cons_self
      have room := fits s List.mem_cons_self
      rw [fileImage_cons, fileImage_outside inside', Mem.store_of_mem _ (by rwa [slice_length whole]), slice_getD whole small]
      intro r later there
      have room' := fits' r later
      exact apart r later _ ⟨by omega, by omega⟩ ⟨there.1, by omega⟩
    · exact ih inside' fits' disjoint member

end Segments

section Reading

/-- Reading delivers exactly the bytes of the file that are asked for. -/
def ReadsFile (file : Fin INODES → List Byte) (ip : Fin INODES) (off n : ℕ) (bytes : List Byte) : Prop :=
  off + n ≤ (file ip).length → bytes = slice (file ip) off n

theorem readsFile_joins (file : Fin INODES → List Byte) (ip : Fin INODES) : Joins (ReadsFile file ip) := by
  refine ⟨fun off _ => rfl, fun off bytes rest first second inside => ?_⟩
  rw [List.length_append] at inside
  have one := first (by omega)
  have two := second (by omega)
  unfold slice at *
  rw [List.length_append, List.take_add, List.drop_drop, ← one, ← two]

/-- What the program headers of a file load, when reading delivers the bytes of the file. -/
theorem Loads.exact {files : Fin INODES → List Byte} {ip : Fin INODES} (loads : Loads (ReadsFile files ip) count off sz data n data')
    (small : (files ip).length < UINT) (table : off + 56 * count ≤ (files ip).length)
    (inside : ∀ s ∈ segmentsFrom (files ip) count off, s.off + s.filesz ≤ (files ip).length) :
    n = highest (segmentsFrom (files ip) count off) sz ∧
      data' = fileImage (files ip) (segmentsFrom (files ip) count off) data ∧
      ∀ s ∈ segmentsFrom (files ip) count off, s.filesz ≤ s.memsz := by
  induction loads with
  | done => exact ⟨rfl, rfl, fun s member => by cases member⟩
  | @skip count off sz sz' data data' ph read other rest ih =>
    obtain rfl := read (by omega)
    rw [Nat.mod_eq_of_lt (by omega)] at ih
    unfold segmentsFrom at inside ⊢
    rw [if_neg other] at inside ⊢
    exact ih (by omega) inside
  | @segment count off sz sz' data data' ph bytes read load fits within aligned length delivered rest ih =>
    obtain rfl := read (by omega)
    rw [Nat.mod_eq_of_lt (by omega)] at ih
    unfold segmentsFrom at inside ⊢
    rw [if_pos load] at inside ⊢
    have here := inside _ List.mem_cons_self
    dsimp only at here
    have exact_ := delivered (by omega)
    rw [length] at exact_
    rw [exact_ here] at ih
    obtain ⟨size, image, fit⟩ := ih (by omega) fun s member => inside s (List.mem_cons_of_mem _ member)
    rw [highest_cons, fileImage_cons]
    refine ⟨size, image, fun s member => ?_⟩
    rcases List.mem_cons.mp member with rfl | member
    · exact fits
    · exact fit s member

end Reading

section Images

variable {argv : List (List Byte)} {entry : ℕ}

/-- User memory of a program of `sz` bytes: its segments, zeros where they bring nothing, a page that is
closed to the program, and a page for the stack with the arguments from `sp` on. -/
structure ProgramImage (v : Vm) (pagetable sz sp : ℕ) (file : List Byte) (argv : List (List Byte)) : Prop where
  size : sz = PGSIZE * pages (highest (segments file) 0) + 2 * PGSIZE
  whole : sz % PGSIZE = 0
  filled : ∀ s ∈ segments file, ∀ j < s.filesz, userAt v pagetable (s.vaddr + j) = file[s.off + j]?
  cleared : ∀ s ∈ segments file, ∀ j, s.filesz ≤ j → j < s.memsz → userAt v pagetable (s.vaddr + j) = some 0
  rest : ∀ a < PGSIZE * pages (highest (segments file) 0), (∀ s ∈ segments file, ¬ s.Holds a) →
    userAt v pagetable a = some 0
  guard : ∃ entry, sv39 v.mem ((sz - 2 * PGSIZE) / PGSIZE) 2 pagetable = some (0, entry) ∧
    entry &&& PTE_V ≠ 0 ∧ entry &&& PTE_U = 0
  stack : ∃ ptrs, Arguments v pagetable sz argv ptrs sp ∧ ∀ a, sz - PGSIZE ≤ a → a < sz →
    ¬ InCopy argv ptrs a → ¬ (sp ≤ a ∧ a < sp + 8 * (argv.length + 1)) → userAt v pagetable a = some 0

/-- The page below the stack is there, but closed to the program. -/
theorem Installed.guard {sp : ℕ} (installed : Installed L k own l p t f (PGSIZE * (N + 2)) entry sp data (guarded N)) :
    ∃ e, sv39 k.vm.mem N 2 (k.procs p).pagetable = some (0, e) ∧ e &&& PTE_V ≠ 0 ∧ e &&& PTE_U = 0 := by
  have closed : guarded N N = 15 := if_pos rfl
  obtain ⟨g, -, -, found⟩ := installed.image.sv39 (u := N) installed.space (by rw [pages_mul]; omega)
    (by rw [closed]; decide) (by rw [closed]; decide)
  rw [closed, ← installed.table] at found
  refine ⟨_, found, ?_, ?_⟩
  · rw [entry_and g (by decide)]
    decide
  · rw [entry_and g (by decide)]
    decide

/-- A process that is ready to run a file sees its program. -/
theorem Ready.programImage (elf : Elf file) (fits : ∀ s ∈ segments file, s.filesz ≤ s.memsz)
    (ready : Ready L k own l p (pages (highest (segments file) 0)) entry
      (fileImage file (segments file) fun _ => 0) argv) :
    ProgramImage k.vm (k.procs p).pagetable (k.procs p).sz (k.vm.load ((k.procs p).trapframe + SP)) file argv := by
  obtain ⟨ptrs, sp, t, f, pushed, installed⟩ := ready
  have ends := (le_highest (segments file) 0).2
  obtain ⟨top, topIs⟩ : ∃ top, highest (segments file) 0 = top := ⟨_, rfl⟩
  rw [topIs] at pushed installed ends
  rw [installed.frame, installed.pointer, installed.size]
  obtain ⟨low, stacked, below⟩ := pushed.copies
  have above := pushed.above
  have under := stacked.low_le
  have high : top ≤ PGSIZE * pages top := by
    simp only [pages, PGSIZE]
    omega
  -- the arguments lie above the program
  have program : ∀ a < PGSIZE * pages top, userAt k.vm (k.procs p).pagetable a =
      some (fileImage file (segments file) (fun _ => 0) a) := by
    intro a inside
    have beyond : a < PGSIZE * (pages top + 1) := by
      rw [Nat.mul_add_one]
      omega
    rw [installed.userAt (by rw [Nat.mul_add]; omega) (by simp only [PGSIZE] at *; omega),
      Mem.store_of_not_mem _ (by omega), storeArgs_outside]
    rintro ⟨i, arg, ptr, here, there, from_, -⟩
    have := (stacked.place here there).2.1
    omega
  have blank : ∀ a, (∀ s ∈ segments file, ¬ (s.vaddr ≤ a ∧ a < s.vaddr + s.filesz)) →
      fileImage file (segments file) (fun _ => 0) a = 0 := fun a outside => fileImage_outside elf.inside outside
  have guard : (PGSIZE * (pages top + 2) - 2 * PGSIZE) / PGSIZE = pages top := by
    simp only [PGSIZE]
    omega
  refine ⟨by rw [topIs, Nat.mul_add, Nat.mul_comm 2], Nat.mul_mod_right _ _, ?_, ?_, ?_, ?_, ptrs, ?_, ?_⟩
  · intro s member j small
    have inside := ends s member
    have fit := fits s member
    rw [program _ (by omega), fileImage_segment elf.inside fits elf.disjoint member small]
  · intro s member j from_ small
    have inside := ends s member
    rw [program _ (by omega), blank]
    intro r other there
    by_cases same : s = r
    · subst same
      omega
    · have fit := fits r other
      exact elf.disjoint.forall member other same _ ⟨by omega, by omega⟩ ⟨there.1, by omega⟩
  · intro a inside none
    rw [topIs] at inside
    rw [program a inside, blank]
    intro s member there
    have fit := fits s member
    exact none s member ⟨there.1, by omega⟩
  · rw [guard]
    exact installed.guard
  · exact pushed.arguments fun a low high => installed.stackAt low high
  · intro a from_ inside copies array
    rw [stackbase_eq] at from_
    have count : (ustackBytes ptrs).length = 8 * (argv.length + 1) := by
      rw [ustackBytes_length, stacked.length]
    rw [installed.stackAt from_ inside, Mem.store_of_not_mem _ (by rwa [count]), storeArgs_outside copies, blank]
    intro s member there
    have end_ := ends s member
    have fit := fits s member
    rw [Nat.mul_add_one] at from_
    omega

end Images

section Examples

/-- A reader that looks the bytes up. -/
def idealReader (files : Fin INODES → List Byte) : Reader where
  header := fun _ ip off n => pure (n, slice (files ip) off n)
  segment := fun _ ip copyout off n =>
    if off + n ≤ (files ip).length then do
      let _ ← copyout 0 (slice (files ip) off n)
      pure (n, [])
    else pure (-1, [])

theorem idealReader_delivers (files : Fin INODES → List Byte) :
    (idealReader files).Delivers Gentle (ReadsFile files) := by
  refine ⟨fun me ip off n k => Sat.pure ⟨⟨k.fs, rfl⟩, fun _ _ => rfl⟩, fun me ip copyout off n I k keeps copies start => ?_⟩
  refine Sat.ite (fun inside => ?_) fun _ => Sat.pure ⟨0, start, fun same => by dsimp only at same; omega⟩
  have length := slice_length inside
  refine Sat.bind (copies 0 _ k (by omega) (fun _ => by rw [length]; rfl) start) fun _ k' holds => ?_
  rw [length] at holds
  exact Sat.pure ⟨n, by simpa using holds, fun _ => rfl⟩

def word (w : ℕ) : List Byte := (List.range 8).map (leByte w)

/-- Two segments, the second one below the first; byte 4096 is the file's byte 176. -/
def twoSegments : List Byte :=
  [0x7f, 0x45, 0x4c, 0x46] ++ List.replicate 28 0 ++ word 64 ++ List.replicate 16 0 ++ [2, 0] ++ List.replicate 6 0 ++
  ([1, 0, 0, 0, 0, 0, 0, 0] ++ word 176 ++ word 4096 ++ word 0 ++ word 2 ++ word 4 ++ word 0) ++
  ([1, 0, 0, 0, 0, 0, 0, 0] ++ word 178 ++ word 0 ++ word 0 ++ word 1 ++ word 1 ++ word 0) ++ [0x61, 0x62, 0x63]

theorem twoSegments_segments : segments twoSegments = [⟨176, 4096, 2, 4⟩, ⟨178, 0, 1, 1⟩] := by decide +kernel

theorem twoSegments_elf : Elf twoSegments := by
  refine ⟨by decide +kernel, by decide +kernel, ?_, ?_⟩
  · rw [twoSegments_segments]
    decide +kernel
  · rw [twoSegments_segments, List.pairwise_pair]
    intro a one two
    simp only [Segment.Holds] at one two
    omega

end Examples

end HaloOS
