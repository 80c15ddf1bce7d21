import HaloOS.Mkfs.Blocks

/-! `iappend` extends the contents of one inode. It stops only when the image has no room
for what is appended. -/

namespace HaloOS.Mkfs

open Lib

variable {table : ℕ → Dinode} {contents : ℕ → List Byte} {places : List Place} {s s' : State}
  {i k fbn x : ℕ} {extent target : ℕ → ℕ} {din : Dinode} {p : List Byte}

/-- The places that inodes of the given lengths use. -/
def Placed (extent : ℕ → ℕ) : Place → Prop
  | .direct i k => k < NDIRECT ∧ k * BSIZE < extent i
  | .indirect i => NDIRECT * BSIZE < extent i
  | .entry i j => j < NINDIRECT ∧ (NDIRECT + j) * BSIZE < extent i

/-- Inodes of the given lengths fit on the image. -/
structure Room (extent : ℕ → ℕ) : Prop where
  small : ∀ i, extent i ≤ MAXFILE * BSIZE
  few : ∀ l : List Place, l.Nodup → (∀ π ∈ l, Placed extent π) → nmeta + l.length ≤ FSSIZE

theorem Placed.mono {π : Place} (placed : Placed extent π) (le : ∀ i, extent i ≤ target i) :
    Placed target π := by
  cases π with
  | direct i k => exact ⟨placed.1, lt_of_lt_of_le placed.2 (le i)⟩
  | indirect i => exact lt_of_lt_of_le placed (le i)
  | entry i j => exact ⟨placed.1, lt_of_lt_of_le placed.2 (le i)⟩

/-- Growing an inode into its next block takes one place, or two at the first indirect
block. -/
theorem placed_extend (extent : ℕ → ℕ) (i : ℕ) {e : ℕ} (next : fbn = extent i / BSIZE)
    (small : fbn < MAXFILE) (low : fbn * BSIZE < e) (high : e ≤ (fbn + 1) * BSIZE) (π : Place) :
    Placed (Function.update extent i e) π ↔
      Placed extent π ∨ π = place i fbn ∨ (π = .indirect i ∧ NDIRECT ≤ fbn) := by
  unfold place
  cases π with
  | direct i' k =>
    by_cases same : i' = i
    · subst same
      simp only [Placed, Function.update_self, BSIZE, NDIRECT, MAXFILE, NINDIRECT] at *
      by_cases direct : fbn < 12
      · simp only [direct, ↓reduceIte, Place.direct.injEq, true_and, reduceCtorEq, false_and, or_false]
        omega
      · simp only [direct, ↓reduceIte, reduceCtorEq, false_and, or_false]
        omega
    · have apart' : Place.direct i' k ≠ if fbn < NDIRECT then .direct i fbn else .entry i (fbn - NDIRECT) := by
        split <;> simp [same]
      simp [Placed, Function.update_of_ne same, apart']
  | indirect i' =>
    by_cases same : i' = i
    · subst same
      simp only [Placed, Function.update_self, BSIZE, NDIRECT, MAXFILE, NINDIRECT] at *
      by_cases direct : fbn < 12
      · simp only [direct, ↓reduceIte, reduceCtorEq, true_and, false_or]
        omega
      · simp only [direct, ↓reduceIte, reduceCtorEq, true_and, false_or]
        omega
    · have apart' : Place.indirect i' ≠ if fbn < NDIRECT then .direct i fbn else .entry i (fbn - NDIRECT) := by
        split <;> simp
      simp [Placed, Function.update_of_ne same, apart', same]
  | entry i' j =>
    by_cases same : i' = i
    · subst same
      simp only [Placed, Function.update_self, BSIZE, NDIRECT, MAXFILE, NINDIRECT] at *
      by_cases direct : fbn < 12
      · simp only [direct, ↓reduceIte, reduceCtorEq, false_and, or_false]
        omega
      · simp only [direct, ↓reduceIte, Place.entry.injEq, true_and, reduceCtorEq, false_and, or_false]
        omega
    · have apart' : Place.entry i' j ≠ if fbn < NDIRECT then .direct i fbn else .entry i (fbn - NDIRECT) := by
        split <;> simp [same]
      simp [Placed, Function.update_of_ne same, apart']

/-- The state while inodes are held in `table`: every place in use has its block, and the
blocks hold the contents. -/
structure Holds (s : State) (table : ℕ → Dinode) (extent : ℕ → ℕ) (contents : ℕ → List Byte)
    (places : List Place) : Prop where
  size : s.image.size = FSSIZE
  freeblock : s.freeblock = nmeta + places.length
  blocks : Blocks table s.image.data contents places
  full : ∀ π, π ∈ places ↔ Placed extent π

/-- What lies below the data blocks is left alone. -/
structure Above (s s' : State) : Prop where
  data : ∀ b < nmeta, s'.image.data b = s.image.data b
  freeinode : s'.freeinode = s.freeinode
  filed : (∀ b ∈ s.filed, nmeta ≤ b) → ∀ b ∈ s'.filed, nmeta ≤ b

theorem Above.refl (s : State) : Above s s := ⟨fun _ _ => rfl, rfl, id⟩

theorem Above.trans {s'' : State} (first : Above s s') (second : Above s' s'') : Above s s'' :=
  ⟨fun b low => (second.data b low).trans (first.data b low),
    second.freeinode.trans first.freeinode, fun filed => second.filed (first.filed filed)⟩

theorem sector_eq (small : x < 2 ^ 22) : sector x = x := by
  simp only [sector, BSIZE, UINT]
  omega

/-- Reading a block of the image, or past its end. -/
theorem rsect_spec {E : Abort → Prop} (size : s.image.size = FSSIZE) (small : x < 2 ^ 22)
    (past : FSSIZE ≤ x → ∀ e, E e) :
    Sat (rsect x) s E fun buf s' => s = s' ∧ x < FSSIZE ∧ s.image.data x = buf := by
  unfold rsect
  refine Sat.bind (Sat.gets (Q := fun a t => s = a ∧ s = t) ⟨rfl, rfl⟩) ?_
  rintro _ _ ⟨rfl, rfl⟩
  rw [sector_eq small, size]
  refine Sat.bind (Sat.stopIf (Q := fun _ t => s = t ∧ x < FSSIZE) (fun exceeds => past exceeds _)
    fun inside => ⟨rfl, not_le.mp inside⟩) ?_
  rintro _ _ ⟨rfl, inside⟩
  exact Sat.pure ⟨rfl, inside, rfl⟩

/-- The image after `wsect` of one of its blocks. -/
def State.put (s : State) (x : ℕ) (buf : Block) : State :=
  { s with image := ⟨s.image.size, Function.update s.image.data x buf⟩ }

theorem put_of_ne {b : ℕ} {buf : Block} (other : b ≠ x) :
    (s.put x buf).image.data b = s.image.data b :=
  Function.update_of_ne other _ _

theorem wsect_spec {E : Abort → Prop} {buf : Block} (size : s.image.size = FSSIZE)
    (inside : x < FSSIZE) :
    Sat (wsect x buf) s E fun _ s' => s.put x buf = s' := by
  have small : sector x = x := sector_eq (by simp only [FSSIZE] at inside; omega)
  refine Sat.update ?_
  have larger : max s.image.size (sector x + 1) = s.image.size := by omega
  rw [larger, small]
  rfl

/-- The image after `wdata` of one of its blocks. -/
def State.file (s : State) (x : ℕ) (buf : Block) : State :=
  { s.put x buf with filed := x :: s.filed }

theorem wdata_spec {E : Abort → Prop} {buf : Block} (size : s.image.size = FSSIZE)
    (inside : x < FSSIZE) :
    Sat (wdata x buf) s E fun _ s' => s.file x buf = s' := by
  unfold wdata
  refine Sat.bind (Sat.update (Q := fun _ t => { s with filed := x :: s.filed } = t) rfl) ?_
  rintro _ _ rfl
  exact wsect_spec (by exact size) inside

theorem nextBlock_spec {E : Abort → Prop} (few : s.freeblock + 1 < UINT) :
    Sat nextBlock s E fun b s' => s.freeblock = b ∧ { s with freeblock := s.freeblock + 1 } = s' := by
  unfold nextBlock
  refine Sat.bind (Sat.gets (Q := fun a t => s = a ∧ s = t) ⟨rfl, rfl⟩) ?_
  rintro _ _ ⟨rfl, rfl⟩
  rw [Nat.mod_eq_of_lt few]
  refine Sat.bind (Sat.update (Q := fun _ t => { s with freeblock := s.freeblock + 1 } = t) rfl) ?_
  rintro _ _ rfl
  exact Sat.pure ⟨rfl, rfl⟩

/-- More places than there are blocks. -/
theorem not_room (nodup : places.Nodup) (placed : ∀ π ∈ places, Placed target π)
    (exceeds : FSSIZE < nmeta + places.length) : ¬ Room target := by
  intro room
  have fits := room.few places nodup placed
  omega

section Append

/-- Outcome of `appendBlock` for inode `i`: block `fbn` has its place. -/
structure Appended (s : State) (table : ℕ → Dinode) (extent : ℕ → ℕ) (contents : ℕ → List Byte)
    (i fbn : ℕ) (din : Dinode) (x : ℕ) (s' : State) (places' : List Place) : Prop where
  holds : Holds s' (Function.update table i din) extent contents places'
  above : Above s s'
  member : place i fbn ∈ places'
  number : x = number nmeta places' (place i fbn)
  few : nmeta + places'.length ≤ FSSIZE ∨ x + 1 = nmeta + places'.length
  bound : x < 2 ^ 22
  header : ∃ addrs, din = { table i with addrs }

theorem appendBlock_direct {e : ℕ} (holds : Holds s table extent contents places)
    (few : nmeta + places.length ≤ FSSIZE) (next : fbn = extent i / BSIZE) (direct : fbn < NDIRECT)
    (same : extent i = (contents i).length) (low : fbn * BSIZE < e) (high : e ≤ (fbn + 1) * BSIZE)
    {E : Abort → Prop} :
    Sat (appendBlock (table i) fbn) s E fun r s' => ∃ places',
      Appended s table (Function.update extent i e) contents i fbn r.1 r.2 s' places' := by
  have grow := placed_extend extent i next (by simp only [MAXFILE]; omega) low high
  have at_ : place i fbn = .direct i fbn := if_pos direct
  have value : (table i).addrs fbn = number nmeta places (.direct i fbn) :=
    holds.blocks.addrs (.direct i fbn) direct
  have notIndirect : ¬ NDIRECT ≤ fbn := by omega
  unfold appendBlock
  rw [if_pos direct]
  refine Sat.ite (fun none => ?_) fun some => ?_
  · have absent : Place.direct i fbn ∉ places := by
      rwa [value, number_eq_zero nmeta_pos] at none
    have past : (contents i).length ≤ fbn * BSIZE := by
      by_contra within
      exact absent ((holds.full _).mpr ⟨direct, by omega⟩)
    have room : s.freeblock + 1 < UINT := by
      rw [holds.freeblock]
      simp only [FSSIZE, UINT] at few ⊢
      omega
    refine Sat.bind (nextBlock_spec room) ?_
    rintro _ _ ⟨rfl, rfl⟩
    refine Sat.pure ⟨places ++ [.direct i fbn], ⟨holds.size, ?_, ?_, ?_⟩, ⟨fun _ _ => rfl, rfl, id⟩, ?_,
      ?_, ?_, ?_, ⟨_, rfl⟩⟩
    · simp [holds.freeblock]
      omega
    · rw [holds.freeblock]
      exact holds.blocks.allocDirect direct absent past
    · intro π
      rw [grow π, at_, List.mem_append, List.mem_singleton, holds.full π]
      simp [notIndirect]
    · simp [at_]
    · rw [at_, number_append_self absent, holds.freeblock]
    · right
      rw [holds.freeblock, List.length_append, List.length_singleton]
      omega
    · rw [holds.freeblock]
      simp only [FSSIZE] at few
      omega
  · have member : Place.direct i fbn ∈ places := by
      rw [value, number_eq_zero nmeta_pos, not_not] at some
      exact some
    have bound : number nmeta places (.direct i fbn) < nmeta + places.length := number_lt member
    refine Sat.pure ⟨places, ⟨holds.size, holds.freeblock, ?_, ?_⟩, .refl s, ?_, ?_, .inl few, ?_,
      ⟨_, rfl⟩⟩
    · rw [Function.update_eq_self]
      exact holds.blocks
    · intro π
      rw [grow π, at_, ← holds.full π]
      refine ⟨.inl, ?_⟩
      rintro (old | rfl | ⟨-, bad⟩)
      · exact old
      · exact member
      · exact absurd bad notIndirect
    · rwa [at_]
    · rw [at_, value]
    · rw [value]
      simp only [FSSIZE] at few
      omega

/-- The indirect block of the inode, allocated if it is missing. -/
theorem appendIndirect_spec (holds : Holds s table extent contents places)
    (few : nmeta + places.length ≤ FSSIZE) {E : Abort → Prop} :
    Sat (appendIndirect (table i)) s E fun d s' => ∃ places',
        s'.image = s.image ∧ s'.freeinode = s.freeinode ∧ s'.filed = s.filed ∧
        s'.freeblock = nmeta + places'.length ∧
        Blocks (Function.update table i d) s'.image.data contents places' ∧
        .indirect i ∈ places' ∧ (∀ π, π ∈ places' ↔ π ∈ places ∨ π = .indirect i) ∧
        places'.length ≤ places.length + 1 ∧ ∃ addrs, d = { table i with addrs } := by
  have value : (table i).addrs NDIRECT = number nmeta places (.indirect i) :=
    holds.blocks.addrs (.indirect i) trivial
  unfold appendIndirect
  refine Sat.ite (fun none => ?_) fun some => ?_
  · have absent : Place.indirect i ∉ places := by
      rwa [value, number_eq_zero nmeta_pos] at none
    have room : s.freeblock + 1 < UINT := by
      rw [holds.freeblock]
      simp only [FSSIZE, UINT] at few ⊢
      omega
    refine Sat.bind (nextBlock_spec room) ?_
    rintro _ _ ⟨rfl, rfl⟩
    refine Sat.pure ⟨places ++ [.indirect i], rfl, rfl, rfl, ?_, ?_, by simp, by simp, by simp, ⟨_, rfl⟩⟩
    · simp [holds.freeblock]
      omega
    · rw [holds.freeblock]
      exact holds.blocks.allocIndirect absent
  · have member : Place.indirect i ∈ places := by
      rw [value, number_eq_zero nmeta_pos, not_not] at some
      exact some
    refine Sat.pure ⟨places, rfl, rfl, rfl, holds.freeblock, ?_, member, ?_, by omega, ⟨_, rfl⟩⟩
    · rw [Function.update_eq_self]
      exact holds.blocks
    · intro π
      refine ⟨.inl, ?_⟩
      rintro (old | rfl)
      · exact old
      · exact member

theorem appendBlock_indirect {e : ℕ} (holds : Holds s table extent contents places)
    (few : nmeta + places.length ≤ FSSIZE) (next : fbn = extent i / BSIZE)
    (indirect : ¬ fbn < NDIRECT) (small : fbn < MAXFILE) (same : extent i = (contents i).length)
    (low : fbn * BSIZE < e) (high : e ≤ (fbn + 1) * BSIZE)
    (le : ∀ j, Function.update extent i e j ≤ target j) :
    Sat (appendBlock (table i) fbn) s (fun _ => ¬ Room target) fun r s' => ∃ places',
      Appended s table (Function.update extent i e) contents i fbn r.1 r.2 s' places' := by
  have grow := placed_extend extent i next small low high
  have at_ : place i fbn = .entry i (fbn - NDIRECT) := if_neg indirect
  have index : fbn - NDIRECT < NINDIRECT := by
    simp only [MAXFILE] at small
    omega
  unfold appendBlock
  rw [if_neg indirect]
  refine Sat.bind (appendIndirect_spec holds few) ?_
  rintro d s₁ ⟨places₁, image₁, freeinode₁, filed₁, freeblock₁, blocks₁, member₁, full₁, length₁, addrs, rfl⟩
  have pointer : addrs NDIRECT = number nmeta places₁ (.indirect i) := by
    simpa [stored] using blocks₁.addrs (.indirect i) trivial
  have placed₁ : ∀ π ∈ places₁, Placed target π := by
    intro π member
    refine Placed.mono ((grow π).mpr ?_) le
    rcases (full₁ π).mp member with old | rfl
    · exact .inl ((holds.full π).mp old)
    · exact .inr (.inr ⟨rfl, by omega⟩)
  have bound : number nmeta places₁ (.indirect i) < nmeta + places₁.length := number_lt member₁
  have size₁ : s₁.image.size = FSSIZE := by rw [image₁, holds.size]
  have above₁ : Above s s₁ := ⟨fun b _ => by rw [image₁], freeinode₁, fun old => by rwa [filed₁]⟩
  have tight : FSSIZE ≤ number nmeta places₁ (.indirect i) → ¬ Room target :=
    fun exceeds => not_room blocks₁.nodup placed₁ (by omega)
  simp only [pointer]
  refine Sat.bind (rsect_spec size₁ (by simp only [FSSIZE] at few; omega)
    fun exceeds _ => tight exceeds) ?_
  rintro _ _ ⟨rfl, inside, rfl⟩
  have nonzero : number nmeta places₁ (.indirect i) ≠ 0 := by
    rw [Ne, number_eq_zero nmeta_pos, not_not]
    exact member₁
  have value : u32 (s₁.image.data (number nmeta places₁ (.indirect i))) (4 * (fbn - NDIRECT)) =
      number nmeta places₁ (.entry i (fbn - NDIRECT)) := by
    have entry := blocks₁.addrs (.entry i (fbn - NDIRECT)) index
    simpa [stored, pointer, nonzero] using entry
  rw [value]
  refine Sat.ite (fun none => ?_) fun some => ?_
  · have absent : Place.entry i (fbn - NDIRECT) ∉ places₁ := by
      rwa [number_eq_zero nmeta_pos] at none
    have past : (contents i).length ≤ (NDIRECT + (fbn - NDIRECT)) * BSIZE := by
      by_contra within
      exact absent ((full₁ _).mpr (.inl ((holds.full _).mpr ⟨index, by omega⟩)))
    have room : s₁.freeblock + 1 < UINT := by
      rw [freeblock₁]
      simp only [FSSIZE, UINT] at few ⊢
      omega
    refine Sat.bind (nextBlock_spec room) ?_
    rintro _ _ ⟨rfl, rfl⟩
    refine Sat.bind (wsect_spec (by exact size₁) inside) ?_
    rintro _ _ rfl
    refine Sat.pure ⟨places₁ ++ [.entry i (fbn - NDIRECT)], ⟨size₁, ?_, ?_, ?_⟩, ?_, ?_, ?_, ?_,
      ?_, ⟨_, rfl⟩⟩
    · simp [State.put, freeblock₁]
      omega
    · rw [freeblock₁]
      exact blocks₁.allocEntry index member₁ absent past (by rw [freeblock₁] at room; omega)
    · intro π
      rw [grow π, at_, List.mem_append, List.mem_singleton, full₁ π, holds.full π]
      constructor
      · rintro ((old | rfl) | rfl)
        · exact .inl old
        · exact .inr (.inr ⟨rfl, by omega⟩)
        · exact .inr (.inl rfl)
      · rintro (old | rfl | ⟨rfl, -⟩)
        · exact .inl (.inl old)
        · exact .inr rfl
        · exact .inl (.inr rfl)
    · refine above₁.trans ⟨fun b low => ?_, rfl, id⟩
      have floor : nmeta ≤ number nmeta places₁ (.indirect i) := le_number member₁
      exact Function.update_of_ne (by omega) _ _
    · simp [at_]
    · rw [at_, number_append_self absent, freeblock₁]
    · right
      rw [freeblock₁, List.length_append, List.length_singleton]
      omega
    · rw [freeblock₁]
      simp only [FSSIZE] at few
      omega
  · have member : Place.entry i (fbn - NDIRECT) ∈ places₁ := by
      rwa [number_eq_zero nmeta_pos, not_not] at some
    -- an entry in use means that the indirect block was there before
    have before : Place.indirect i ∈ places := by
      rcases (full₁ _).mp member with old | bad
      · by_contra absent
        exact holds.blocks.entry_not_mem absent index old
      · simp at bad
    have same₁ : ∀ π, π ∈ places₁ ↔ π ∈ places := by
      intro π
      rw [full₁ π]
      refine ⟨?_, .inl⟩
      rintro (old | rfl)
      · exact old
      · exact before
    have limit : number nmeta places₁ (.entry i (fbn - NDIRECT)) < nmeta + places₁.length :=
      number_lt member
    refine Sat.pure ⟨places₁, ⟨size₁, freeblock₁, blocks₁, ?_⟩, above₁, ?_, ?_, ?_, ?_, ⟨_, rfl⟩⟩
    · intro π
      rw [grow π, at_, same₁ π, ← holds.full π]
      refine ⟨.inl, ?_⟩
      rintro (old | rfl | ⟨rfl, -⟩)
      · exact old
      · exact (same₁ _).mp member
      · exact before
    · rwa [at_]
    · rw [at_]
    · left
      have fewer : places₁.length ≤ places.length :=
        List.Subperm.length_le (List.subperm_of_subset blocks₁.nodup fun π inside => (same₁ π).mp inside)
      omega
    · simp only [FSSIZE] at few
      omega

theorem appendBlock_spec {e : ℕ} (holds : Holds s table extent contents places)
    (few : nmeta + places.length ≤ FSSIZE) (next : fbn = extent i / BSIZE) (small : fbn < MAXFILE)
    (same : extent i = (contents i).length) (low : fbn * BSIZE < e) (high : e ≤ (fbn + 1) * BSIZE)
    (le : ∀ j, Function.update extent i e j ≤ target j) :
    Sat (appendBlock (table i) fbn) s (fun _ => ¬ Room target) fun r s' => ∃ places',
      Appended s table (Function.update extent i e) contents i fbn r.1 r.2 s' places' := by
  by_cases direct : fbn < NDIRECT
  · exact appendBlock_direct holds few next direct same low high
  · exact appendBlock_indirect holds few next direct small same low high le

/-- The lengths of the contents. -/
def lengths (contents : ℕ → List Byte) : ℕ → ℕ := fun i => (contents i).length

theorem lengths_update (contents : ℕ → List Byte) (i : ℕ) (content : List Byte) :
    lengths (Function.update contents i content) =
      Function.update (lengths contents) i content.length := by
  funext j
  by_cases same : j = i
  · subst same
    simp [lengths]
  · simp [lengths, Function.update_of_ne same]

theorem update_append (contents : ℕ → List Byte) (i : ℕ) (p q : List Byte) :
    Function.update (Function.update contents i (contents i ++ p)) i
        (Function.update contents i (contents i ++ p) i ++ q) =
      Function.update contents i (contents i ++ (p ++ q)) := by
  rw [Function.update_self, Function.update_idem, List.append_assoc]

/-- The bytes of a block after a copy into it from the end of the contents on. -/
theorem bcopy_bytes {content : List Byte} {buf : Block} (next : fbn = content.length / BSIZE)
    (fits : content.length + p.length ≤ (fbn + 1) * BSIZE)
    (old : ∀ o < BSIZE, buf o = content.getD (fbn * BSIZE + o) 0) {o : ℕ} (inside : o < BSIZE) :
    bcopy p (content.length - fbn * BSIZE) buf o = (content ++ p).getD (fbn * BSIZE + o) 0 := by
  have floor : fbn * BSIZE ≤ content.length := by
    rw [next]
    exact Nat.div_mul_le_self _ _
  unfold bcopy
  by_cases below : fbn * BSIZE + o < content.length
  · rw [if_neg (by omega), old o inside, List.getD_append _ _ _ _ below]
  · rw [List.getD_append_right _ _ _ _ (by omega)]
    by_cases within : o < content.length - fbn * BSIZE + p.length
    · rw [if_pos (by omega)]
      congr 1
      omega
    · rw [if_neg (by omega), old o inside, List.getD_eq_default _ _ (by omega),
        List.getD_eq_default _ _ (by omega)]

/-- The block that `appendBlock` found, filled with the next bytes. -/
theorem Appended.fill {buf : Block} {s₁ : State}
    (appended : Appended s table (lengths (Function.update contents i (contents i ++ p))) contents i
      fbn din x s₁ places) (next : fbn = (contents i).length / BSIZE)
    (fits : (contents i).length + p.length ≤ (fbn + 1) * BSIZE) (inside : x < FSSIZE)
    (read : s₁.image.data x = buf) :
    Holds (s₁.file x (bcopy p ((contents i).length - fbn * BSIZE) buf)) (Function.update table i din)
        (lengths (Function.update contents i (contents i ++ p)))
        (Function.update contents i (contents i ++ p)) places ∧
      nmeta + places.length ≤ FSSIZE ∧
      Above s (s₁.file x (bcopy p ((contents i).length - fbn * BSIZE) buf)) := by
  have member := appended.member
  have old : ∀ o < BSIZE, buf o = (contents i).getD (fbn * BSIZE + o) 0 := by
    intro o small
    rw [← read, appended.number]
    exact appended.holds.blocks.bytes i fbn member o small
  have floor : nmeta ≤ x := by
    rw [appended.number]
    exact le_number member
  refine ⟨⟨appended.holds.size, appended.holds.freeblock, ?_, appended.holds.full⟩, ?_, ?_⟩
  · rw [State.file, State.put, appended.number]
    refine appended.holds.blocks.write member (fun o small => bcopy_bytes next fits old small) ?_
    intro fbn' other placed o small
    have used := (appended.holds.full _).mp placed
    -- blocks other than the last lie wholly inside the old contents
    have below : fbn' < fbn := by
      have bound : fbn' * BSIZE < (contents i ++ p).length := by
        rw [lengths_update] at used
        by_cases direct : fbn' < NDIRECT
        · rw [place, if_pos direct] at used
          simpa using used.2
        · rw [place, if_neg direct] at used
          have bound := used.2
          rwa [Function.update_self, Nat.add_sub_cancel' (by omega)] at bound
      rw [List.length_append] at bound
      simp only [BSIZE] at *
      omega
    rw [List.getD_append]
    simp only [BSIZE] at *
    omega
  · rcases appended.few with few | last <;> omega
  · refine appended.above.trans ⟨fun b low => ?_, rfl, fun old b member => ?_⟩
    · exact Function.update_of_ne (by omega) _ _
    · rcases List.mem_cons.mp member with rfl | before
      · exact floor
      · exact old b before

/-- The loop of `iappend`. -/
theorem iappendLoop_spec (fuel : ℕ) (holds : Holds s table (lengths contents) contents places)
    (few : nmeta + places.length ≤ FSSIZE) (enough : p.length ≤ fuel)
    (small : (contents i).length ≤ MAXFILE * BSIZE)
    (extent : lengths (Function.update contents i (contents i ++ p)) = target) :
    Sat (iappendLoop fuel (table i) (contents i).length p) s (fun _ => ¬ Room target) fun r s' =>
      ∃ places', Holds s' (Function.update table i r.1) target
          (Function.update contents i (contents i ++ p)) places' ∧
        nmeta + places'.length ≤ FSSIZE ∧ Above s s' ∧ (∃ addrs, r.1 = { table i with addrs }) ∧
        r.2 = (contents i ++ p).length ∧ (contents i ++ p).length ≤ MAXFILE * BSIZE := by
  induction fuel generalizing s table contents places p with
  | zero =>
    obtain rfl : p = [] := List.eq_nil_of_length_eq_zero (by omega)
    subst extent
    rw [List.append_nil, Function.update_eq_self]
    refine Sat.pure ?_
    rw [Function.update_eq_self]
    exact ⟨places, holds, few, .refl s, ⟨_, rfl⟩, rfl, small⟩
  | succ fuel ih =>
    unfold iappendLoop
    refine Sat.ite (fun empty => ?_) fun some => ?_
    · subst empty extent
      rw [List.append_nil, Function.update_eq_self]
      refine Sat.pure ?_
      rw [Function.update_eq_self]
      exact ⟨places, holds, few, .refl s, ⟨_, rfl⟩, rfl, small⟩
    · have positive : 0 < p.length := List.length_pos_iff.mpr some
      generalize next : (contents i).length / BSIZE = fbn
      have reach : lengths (Function.update contents i (contents i ++ p)) i =
          (contents i).length + p.length := by simp [lengths]
      refine Sat.bind (Sat.stopIf (Q := fun _ t => s = t ∧ fbn < MAXFILE) (fun exceeds room => ?_)
        fun inside => ⟨rfl, by omega⟩) ?_
      · have bound := room.small i
        rw [← extent, reach] at bound
        simp only [BSIZE, MAXFILE, NDIRECT, NINDIRECT] at *
        omega
      rintro _ _ ⟨rfl, inside⟩
      generalize count : min p.length ((fbn + 1) * BSIZE - (contents i).length) = n1
      have some₁ : 0 < n1 := by
        simp only [BSIZE] at *
        omega
      have taken : (p.take n1).length = n1 := by
        rw [List.length_take]
        omega
      have fits : (contents i).length + (p.take n1).length ≤ (fbn + 1) * BSIZE := by
        simp only [BSIZE] at *
        omega
      have low : fbn * BSIZE < (contents i).length + (p.take n1).length := by
        simp only [BSIZE] at *
        omega
      have target₁ : ∀ j, Function.update (lengths contents) i
          ((contents i).length + (p.take n1).length) j ≤ target j := by
        intro j
        rw [← extent, lengths_update]
        by_cases same : j = i
        · subst same
          rw [Function.update_self, Function.update_self, List.length_append]
          omega
        · rw [Function.update_of_ne same, Function.update_of_ne same]
      refine Sat.bind (appendBlock_spec holds few next.symm inside rfl low fits target₁) ?_
      rintro ⟨d, x⟩ s₁ ⟨places₁, appended⟩
      dsimp only at appended ⊢
      rw [← List.length_append, ← lengths_update] at appended
      have bound : x < nmeta + places₁.length := by
        rw [appended.number]
        exact number_lt appended.member
      have placed : ∀ π ∈ places₁, Placed target π := by
        intro π member
        refine Placed.mono ((appended.holds.full π).mp member) ?_
        rw [lengths_update, List.length_append]
        exact target₁
      refine Sat.bind (rsect_spec appended.holds.size appended.bound fun exceeds _ =>
        not_room appended.holds.blocks.nodup placed (by omega)) ?_
      rintro buf _ ⟨rfl, within, read⟩
      refine Sat.bind (wdata_spec appended.holds.size within) ?_
      rintro _ _ rfl
      obtain ⟨holds₂, few₂, above₂⟩ := appended.fill next.symm fits within read
      have small₂ : (Function.update contents i (contents i ++ p.take n1) i).length ≤
          MAXFILE * BSIZE := by
        rw [Function.update_self, List.length_append]
        exact le_trans fits (Nat.mul_le_mul_right BSIZE inside)
      have extent₂ : lengths (Function.update (Function.update contents i (contents i ++ p.take n1)) i
          (Function.update contents i (contents i ++ p.take n1) i ++ p.drop n1)) = target := by
        rw [update_append, List.take_append_drop, extent]
      have rest := ih holds₂ few₂ (by rw [List.length_drop]; omega) small₂ extent₂
      have offset : ((contents i).length + n1) % UINT =
          (Function.update contents i (contents i ++ p.take n1) i).length := by
        rw [Function.update_self, List.length_append, taken] at small₂ ⊢
        exact Nat.mod_eq_of_lt (lt_of_le_of_lt small₂ (by decide))
      rw [offset]
      rw [Function.update_self] at rest
      refine rest.mono ?_
      rintro ⟨d', off'⟩ s₃ ⟨places₃, holds₃, few₃, above₃, header₃, size₃, small₃⟩
      dsimp only at holds₃ header₃ size₃ small₃ ⊢
      rw [update_append, List.take_append_drop, Function.update_idem] at holds₃
      rw [Function.update_self, List.append_assoc, List.take_append_drop] at size₃ small₃
      obtain ⟨addrs, header⟩ := appended.header
      obtain ⟨addrs', header'⟩ := header₃
      refine ⟨places₃, holds₃, few₃, above₂.trans above₃, ⟨addrs', ?_⟩, size₃, small₃⟩
      rw [header', header]

end Append

end HaloOS.Mkfs
