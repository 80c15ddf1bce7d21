import HaloOS.Mkfs.Append

/-! The image as a volume: inodes with their contents, laid out in the blocks that were
handed out so far. -/

namespace HaloOS.Mkfs

open Lib

variable {table : ℕ → Dinode} {contents : ℕ → List Byte} {kinds : ℕ → ℕ} {places : List Place}
  {s s' : State} {i : ℕ} {d : Dinode} {p : List Byte} {E : Abort → Prop}

/-- The blocks below the data: boot block, superblock, log, inodes and bitmap. -/
structure Areas (s : State) (table : ℕ → Dinode) : Prop where
  boot : s.image.data 0 = fun _ => 0
  super : s.image.data 1 = sbByte sb
  log : ∀ b, 2 ≤ b → b < sb.inodestart → s.image.data b = fun _ => 0
  inodes : ∀ i < ninodeblocks * IPB, ∀ k < 64,
    s.image.data (IBLOCK i sb) (64 * (i % IPB) + k) = (table i).byte k
  bitmap : s.image.data sb.bmapstart = fun _ => 0

/-- Every inode of the table has its kind and contents on the image. -/
structure Volume (s : State) (table : ℕ → Dinode) (kinds : ℕ → ℕ) (contents : ℕ → List Byte)
    (places : List Place) : Prop where
  holds : Holds s table (lengths contents) contents places
  few : nmeta + places.length ≤ FSSIZE
  areas : Areas s table
  filed : ∀ b ∈ s.filed, nmeta ≤ b
  fits : ∀ i, (table i).Fits
  sizes : ∀ i, (table i).size = (contents i).length
  small : ∀ i, (contents i).length ≤ MAXFILE * BSIZE
  kind : ∀ i, (table i).type = kinds i ∧ (table i).major = 0 ∧ (table i).minor = 0 ∧
    (table i).nlink = if kinds i = 0 then 0 else 1

theorem IBLOCK_bounds (inside : i < ninodeblocks * IPB) :
    sb.inodestart ≤ IBLOCK i sb ∧ IBLOCK i sb < sb.bmapstart := by
  have start : sb.inodestart = 32 := rfl
  have stop : sb.bmapstart = 45 := rfl
  have count : ninodeblocks * IPB = 208 := rfl
  simp only [IBLOCK, IPB, start, stop, count] at *
  omega

theorem bmapstart_lt : sb.bmapstart < nmeta := by decide

/-- Changes below the data blocks do not concern them. -/
theorem Blocks.below {data data' : ℕ → Block} (blocks : Blocks table data contents places)
    (same : ∀ b, nmeta ≤ b → data' b = data b) : Blocks table data' contents places where
  nodup := blocks.nodup
  addrs := by
    intro π valid
    rw [← blocks.addrs π valid]
    cases π with
    | direct i k => rfl
    | indirect i => rfl
    | entry i j =>
      simp only [stored]
      by_cases none : (table i).addrs NDIRECT = 0
      · rw [if_pos none, if_pos none]
      · have pointer : (table i).addrs NDIRECT = number nmeta places (.indirect i) :=
          blocks.addrs (.indirect i) trivial
        have member : Place.indirect i ∈ places := by
          rwa [pointer, number_eq_zero nmeta_pos, not_not] at none
        rw [if_neg none, if_neg none, same]
        rw [pointer]
        exact le_number member
  bytes := by
    intro i fbn member o inside
    rw [same _ (le_number member)]
    exact blocks.bytes i fbn member o inside
  zero := by
    intro b beyond
    rw [same b (by omega)]
    exact blocks.zero b beyond

theorem Areas.above (areas : Areas s table) (above : Above s s') : Areas s' table where
  boot := (above.data 0 (by decide)).trans areas.boot
  super := (above.data 1 (by decide)).trans areas.super
  log := fun b low high => by
    have start := bmapstart_lt
    have order : sb.inodestart ≤ sb.bmapstart := by decide
    exact (above.data b (by omega)).trans (areas.log b low high)
  inodes := fun i inside k small => by
    have bounds := IBLOCK_bounds inside
    have start := bmapstart_lt
    rw [above.data _ (by omega)]
    exact areas.inodes i inside k small
  bitmap := (above.data _ bmapstart_lt).trans areas.bitmap

theorem same_slot {i j : ℕ} (block : IBLOCK i sb = IBLOCK j sb) (slot : i % IPB = j % IPB) : i = j := by
  simp only [IBLOCK, IPB] at *
  omega

/-- Writing an inode changes its slot only. -/
theorem Areas.winode (areas : Areas s table) (inside : i < ninodeblocks * IPB) (d : Dinode) :
    Areas (s.put (IBLOCK i sb) (d.write (i % IPB) (s.image.data (IBLOCK i sb))))
      (Function.update table i d) where
  boot := by
    have bounds := IBLOCK_bounds inside
    have start : 2 ≤ sb.inodestart := by decide
    rw [put_of_ne (by omega)]
    exact areas.boot
  super := by
    have bounds := IBLOCK_bounds inside
    have start : 2 ≤ sb.inodestart := by decide
    rw [put_of_ne (by omega)]
    exact areas.super
  log := by
    intro b low high
    have bounds := IBLOCK_bounds inside
    rw [put_of_ne (by omega)]
    exact areas.log b low high
  inodes := by
    intro j inside' k small
    simp only [State.put]
    by_cases block : IBLOCK j sb = IBLOCK i sb
    · rw [block, Function.update_self]
      by_cases slot : j % IPB = i % IPB
      · obtain rfl := same_slot block slot
        rw [Function.update_self, d.write_at _ _ small]
      · have other : j ≠ i := fun same => slot (by rw [same])
        rw [d.write_of_ne slot small, Function.update_of_ne other, ← block]
        exact areas.inodes j inside' k small
    · have other : j ≠ i := fun same => block (by rw [same])
      rw [Function.update_of_ne block, Function.update_of_ne other]
      exact areas.inodes j inside' k small
  bitmap := by
    have bounds := IBLOCK_bounds inside
    rw [put_of_ne (by omega)]
    exact areas.bitmap

theorem rinode_spec (areas : Areas s table) (fits : (table i).Fits)
    (size : s.image.size = FSSIZE) (inside : i < ninodeblocks * IPB) :
    Sat (rinode i) s E fun d s' => s = s' ∧ d.Same (table i) := by
  have bounds := IBLOCK_bounds inside
  have stop : sb.bmapstart < FSSIZE := by decide
  unfold rinode
  refine Sat.bind (rsect_spec size (by simp only [FSSIZE] at stop; omega) fun exceeds => by omega) ?_
  rintro _ _ ⟨rfl, -, rfl⟩
  exact Sat.pure ⟨rfl, Dinode.read_bytes fits (areas.inodes i inside)⟩

theorem winode_spec (size : s.image.size = FSSIZE) (inside : i < ninodeblocks * IPB) :
    Sat (winode i d) s E fun _ s' =>
      s.put (IBLOCK i sb) (d.write (i % IPB) (s.image.data (IBLOCK i sb))) = s' := by
  have bounds := IBLOCK_bounds inside
  have stop : sb.bmapstart < FSSIZE := by decide
  unfold winode
  refine Sat.bind (rsect_spec size (by simp only [FSSIZE] at stop; omega) fun exceeds => by omega) ?_
  rintro _ _ ⟨rfl, -, rfl⟩
  exact wsect_spec size (by omega)

theorem Holds.put {extent : ℕ → ℕ} (holds : Holds s table extent contents places)
    (inside : i < ninodeblocks * IPB) (buf : Block) :
    Holds (s.put (IBLOCK i sb) buf) table extent contents places where
  size := holds.size
  freeblock := holds.freeblock
  blocks := by
    refine holds.blocks.below fun b above => ?_
    have bounds := IBLOCK_bounds inside
    have start := bmapstart_lt
    exact put_of_ne (by omega)
  full := holds.full

/-- The addresses of an inode fit: they are numbers of blocks of the image. -/
theorem Holds.addrs_lt {extent : ℕ → ℕ} (holds : Holds s table extent contents places)
    (few : nmeta + places.length ≤ FSSIZE) (i : ℕ) : ∀ k ≤ NDIRECT, (table i).addrs k < UINT := by
  have bound : ∀ π, number nmeta places π < UINT := by
    intro π
    simp only [FSSIZE, UINT] at *
    by_cases member : π ∈ places
    · have below : number nmeta places π < nmeta + places.length := number_lt member
      omega
    · rw [number_of_not_mem member]
      omega
  intro k le
  rcases lt_or_eq_of_le le with direct | rfl
  · have value : (table i).addrs k = number nmeta places (.direct i k) :=
      holds.blocks.addrs (.direct i k) direct
    rw [value]
    exact bound _
  · have value : (table i).addrs NDIRECT = number nmeta places (.indirect i) :=
      holds.blocks.addrs (.indirect i) trivial
    rw [value]
    exact bound _

/-- `iappend` appends to the contents of an inode. -/
theorem iappend_spec (volume : Volume s table kinds contents places)
    (inside : i < ninodeblocks * IPB) :
    Sat (iappend i p) s (fun _ => ¬ Room (lengths (Function.update contents i (contents i ++ p))))
      fun _ s' => s'.freeinode = s.freeinode ∧ ∃ table' places',
        Volume s' table' kinds (Function.update contents i (contents i ++ p)) places' := by
  unfold iappend
  refine Sat.bind (rinode_spec volume.areas (volume.fits i) volume.holds.size inside) ?_
  rintro din _ ⟨rfl, same⟩
  have holds : Holds s (Function.update table i din) (lengths contents) contents places := by
    refine { volume.holds with blocks := volume.holds.blocks.congr fun j k le => ?_ }
    by_cases here : j = i
    · subst here
      rw [Function.update_self]
      exact same.addrs k le
    · rw [Function.update_of_ne here]
  have loop := iappendLoop_spec (p := p) p.length holds volume.few (le_refl _)
    (volume.small i) rfl
  rw [Function.update_self, ← volume.sizes i, ← same.size] at loop
  refine Sat.bind loop ?_
  rintro ⟨d, off⟩ s₁ ⟨places₁, holds₁, few₁, above₁, ⟨addrs, rfl⟩, size₁, small₁⟩
  dsimp only at holds₁ size₁ ⊢
  rw [Function.update_idem] at holds₁
  have areas₁ := volume.areas.above above₁
  refine (winode_spec holds₁.size inside).mono ?_
  rintro _ _ rfl
  have fit : off < UINT := by
    rw [size₁]
    exact lt_of_le_of_lt small₁ (by decide)
  refine ⟨above₁.freeinode, Function.update table i { din with addrs, size := off }, places₁, ?_, few₁,
    areas₁.winode inside _, above₁.filed volume.filed, ?_, ?_, ?_, ?_⟩
  · refine Holds.put { holds₁ with blocks := holds₁.blocks.congr fun j k le => ?_ } inside _
    by_cases here : j = i
    · subst here
      rw [Function.update_self, Function.update_self]
    · rw [Function.update_of_ne here, Function.update_of_ne here]
  · intro j
    by_cases here : j = i
    · subst here
      rw [Function.update_self]
      have old := volume.fits j
      have bounded := holds₁.addrs_lt few₁ j
      rw [Function.update_self] at bounded
      exact ⟨same.type ▸ old.type, same.major ▸ old.major, same.minor ▸ old.minor,
        same.nlink ▸ old.nlink, fit, bounded⟩
    · rw [Function.update_of_ne here]
      exact volume.fits j
  · intro j
    by_cases here : j = i
    · subst here
      rw [Function.update_self, Function.update_self]
      exact size₁
    · rw [Function.update_of_ne here, Function.update_of_ne here]
      exact volume.sizes j
  · intro j
    by_cases here : j = i
    · subst here
      rw [Function.update_self]
      exact small₁
    · rw [Function.update_of_ne here]
      exact volume.small j
  · intro j
    by_cases here : j = i
    · subst here
      rw [Function.update_self]
      obtain ⟨type, major, minor, nlink⟩ := volume.kind j
      exact ⟨same.type.trans type, same.major.trans major, same.minor.trans minor,
        same.nlink.trans nlink⟩
    · rw [Function.update_of_ne here]
      exact volume.kind j

/-- An inode without contents has no blocks. -/
theorem Volume.addrs_eq_zero (volume : Volume s table kinds contents places)
    (empty : contents i = []) : ∀ k ≤ NDIRECT, (table i).addrs k = 0 := by
  intro k le
  rcases lt_or_eq_of_le le with direct | rfl
  · have value : (table i).addrs k = number nmeta places (.direct i k) :=
      volume.holds.blocks.addrs (.direct i k) direct
    rw [value, number_eq_zero nmeta_pos, volume.holds.full]
    simp [Placed, lengths, empty]
  · have value : (table i).addrs NDIRECT = number nmeta places (.indirect i) :=
      volume.holds.blocks.addrs (.indirect i) trivial
    rw [value, number_eq_zero nmeta_pos, volume.holds.full]
    simp [Placed, lengths, empty]

/-- `ialloc` takes the next inode. -/
theorem ialloc_spec (volume : Volume s table kinds contents places) {type : ℕ}
    (inside : s.freeinode < ninodeblocks * IPB) (empty : contents s.freeinode = [])
    (positive : type ≠ 0) (fit : type < SHORT) :
    Sat (ialloc type) s E fun r s' => r = s.freeinode ∧ s'.freeinode = s.freeinode + 1 ∧
      ∃ table', Volume s' table' (Function.update kinds s.freeinode type) contents places := by
  unfold ialloc
  refine Sat.bind (Sat.gets (Q := fun a t => s = a ∧ s = t) ⟨rfl, rfl⟩) ?_
  rintro _ _ ⟨rfl, rfl⟩
  refine Sat.bind (Sat.update (Q := fun _ t => { s with freeinode := s.freeinode + 1 } = t) rfl) ?_
  rintro _ _ rfl
  refine Sat.bind (winode_spec (by exact volume.holds.size) inside) ?_
  rintro _ _ rfl
  have none := volume.addrs_eq_zero empty
  have holds : Holds s (Function.update table s.freeinode { type, nlink := 1 }) (lengths contents)
      contents places := by
    refine { volume.holds with blocks := volume.holds.blocks.congr fun j k le => ?_ }
    by_cases here : j = s.freeinode
    · subst here
      rw [Function.update_self]
      exact (none k le).symm
    · rw [Function.update_of_ne here]
  have moved : Areas { s with freeinode := s.freeinode + 1 } table :=
    ⟨volume.areas.boot, volume.areas.super, volume.areas.log, volume.areas.inodes,
      volume.areas.bitmap⟩
  have holds' : Holds { s with freeinode := s.freeinode + 1 }
      (Function.update table s.freeinode { type, nlink := 1 }) (lengths contents) contents places :=
    ⟨holds.size, holds.freeblock, holds.blocks, holds.full⟩
  refine Sat.pure ⟨rfl, rfl, Function.update table s.freeinode { type, nlink := 1 },
    holds'.put inside _, volume.few, moved.winode inside _, volume.filed, ?_, ?_, volume.small, ?_⟩
  · intro j
    by_cases here : j = s.freeinode
    · subst here
      rw [Function.update_self]
      exact ⟨fit, by simp [SHORT], by simp [SHORT], by simp [SHORT], by simp [UINT], by simp [UINT]⟩
    · rw [Function.update_of_ne here]
      exact volume.fits j
  · intro j
    by_cases here : j = s.freeinode
    · subst here
      rw [Function.update_self, empty]
      rfl
    · rw [Function.update_of_ne here]
      exact volume.sizes j
  · intro j
    by_cases here : j = s.freeinode
    · subst here
      rw [Function.update_self, Function.update_self, if_neg positive]
      exact ⟨rfl, rfl, rfl, rfl⟩
    · rw [Function.update_of_ne here, Function.update_of_ne here]
      exact volume.kind j

end HaloOS.Mkfs
