import HaloOS.Fs.Bmap

/-! `itrunc` frees the blocks of an inode. Of the indirect block it looks at the first
`NDIRECT` entries only, so it frees what the inode owns exactly when the others are empty. -/

namespace HaloOS

open Lib Mkfs

variable {V : ℕ → Block} {s : Fs} {me k n : ℕ} {H : List (Fin NBUF)} {i : Fin INODES}
  {sb : Superblock} {E : Stop → Prop}

/-- The contents after the blocks of a list are freed; 0 stands for none. -/
def freeAll (sb : Superblock) (V : ℕ → Block) (l : List ℕ) : ℕ → Block :=
  l.foldl (fun V b => if b = 0 then V else freed sb V b) V

section Free

variable {l : List ℕ} {b : ℕ}

theorem freed_of_ne (small : b < BPB) (other : n ≠ sb.bmapstart) : freed sb V b n = V n := by
  unfold freed
  rw [BBLOCK_small small, Function.update_of_ne other]

theorem bit_freed (small : b < BPB) (x : ℕ) :
    bitSet (freed sb V b sb.bmapstart) x = (!decide (x = b) && bitSet (V sb.bmapstart) x) := by
  unfold freed
  rw [BBLOCK_small small, Function.update_self, bitSet_clearBit, Nat.mod_eq_of_lt small]

theorem freeAll_of_ne (small : ∀ b ∈ l, b < BPB) (other : n ≠ sb.bmapstart) : freeAll sb V l n = V n := by
  induction l generalizing V with
  | nil => rfl
  | cons b rest ih =>
    have tail := ih (V := if b = 0 then V else freed sb V b) fun x member => small x (List.mem_cons_of_mem _ member)
    rw [freeAll, List.foldl_cons]
    refine tail.trans ?_
    split
    · rfl
    · exact freed_of_ne (small b List.mem_cons_self) other

/-- The bits of the freed blocks are cleared, and no others. -/
theorem bit_freeAll (small : ∀ b ∈ l, b < BPB) (x : ℕ) :
    bitSet (freeAll sb V l sb.bmapstart) x = true ↔
      bitSet (V sb.bmapstart) x = true ∧ ¬ (x ≠ 0 ∧ x ∈ l) := by
  induction l generalizing V with
  | nil => simp [freeAll]
  | cons b rest ih =>
    have tail := ih (V := if b = 0 then V else freed sb V b) fun x member => small x (List.mem_cons_of_mem _ member)
    rw [freeAll, List.foldl_cons]
    refine tail.trans ?_
    by_cases zero : b = 0
    · rw [if_pos zero, zero, List.mem_cons]
      tauto
    · rw [if_neg zero, bit_freed (small b List.mem_cons_self), List.mem_cons]
      by_cases here : x = b
      · simp [here, zero]
      · simp [here]

theorem freeAll_zero (zero : b = 0) : freeAll sb V (b :: l) = freeAll sb V l := by
  simp [freeAll, zero]

theorem freeAll_cons (nonzero : b ≠ 0) : freeAll sb V (b :: l) = freeAll sb (freed sb V b) l := by
  simp [freeAll, nonzero]

theorem freeAll_append (l l' : List ℕ) : freeAll sb V (l ++ l') = freeAll sb (freeAll sb V l) l' :=
  List.foldl_append

end Free

/-- The blocks of a list can be freed one after the other: they are marked and distinct. -/
structure Freeable (sb : Superblock) (V : ℕ → Block) (l : List ℕ) : Prop where
  small : ∀ b ∈ l, b < BPB
  marked : ∀ b ∈ l, b ≠ 0 → bitSet (V sb.bmapstart) b = true
  apart : l.Pairwise fun a b => a ≠ 0 → a ≠ b

theorem Freeable.tail {b : ℕ} {l : List ℕ} (freeable : Freeable sb V (b :: l)) :
    Freeable sb (if b = 0 then V else freed sb V b) l where
  small := fun x member => freeable.small x (List.mem_cons_of_mem _ member)
  marked := by
    intro x member nonzero
    have set := freeable.marked x (List.mem_cons_of_mem _ member) nonzero
    by_cases zero : b = 0
    · rwa [if_pos zero]
    · have other : b ≠ x := (List.pairwise_cons.mp freeable.apart).1 x member zero
      rw [if_neg zero, bit_freed (freeable.small b List.mem_cons_self), set]
      simp [Ne.symm other]
  apart := (List.pairwise_cons.mp freeable.apart).2

/-- The outcome of freeing blocks while the buffers `H` are held. -/
structure ShowsFreed (V : ℕ → Block) (me k : ℕ) (H : List (Fin NBUF)) (s s' : Fs) : Prop where
  rest : Rest V me k H s'.cache
  tags : ∀ j ∈ H, (s'.cache.bufs j).blockno = (s.cache.bufs j).blockno
  disk : s'.cache.disk = s.cache.disk
  super : s'.sb = s.sb
  inodes : s'.inodes = s.inodes

theorem ShowsFreed.after {s₁ s₂ : Fs} (last : ShowsFreed V me k H s₁ s₂)
    (tags : ∀ j ∈ H, (s₁.cache.bufs j).blockno = (s.cache.bufs j).blockno)
    (disk : s₁.cache.disk = s.cache.disk) (super : s₁.sb = s.sb) (inodes : s₁.inodes = s.inodes) :
    ShowsFreed V me k H s s₂ :=
  ⟨last.rest, fun j member => (last.tags j member).trans (tags j member), last.disk.trans disk,
    last.super.trans super, last.inodes.trans inodes⟩

theorem bio_bfree_rest {x : ℕ} (super : s.sb = sb) (rest : Rest V me k H s.cache)
    (room : k + H.length < NBUF) (apart : ∀ j ∈ H, (s.cache.bufs j).blockno ≠ sb.bmapstart)
    (small : x < BPB) (marked : bitSet (V sb.bmapstart) x = true) :
    Sat (do
        let sb ← gets (·.sb)
        bio (bfree me ROOTDEV sb x) : Fio Unit) s E fun _ s' =>
      (ShowsFreed (freed sb V x) me (k + 1) H s s' ∧ Near sb.bmapstart (k + 1) s'.cache) ∧
      (Near sb.bmapstart k s.cache → ShowsFreed (freed sb V x) me k H s s' ∧ Near sb.bmapstart k s'.cache) := by
  have block : BBLOCK x sb = sb.bmapstart := BBLOCK_small small
  refine Sat.bind (Sat.gets (Q := fun a t => sb = a ∧ s = t) ⟨super.symm, rfl⟩) ?_
  rintro _ _ ⟨rfl, rfl⟩
  refine Sat.zoom ((bfree_used rest room (by rwa [block]) (by rwa [block, Nat.mod_eq_of_lt small])).mono ?_)
  rw [block]
  rintro _ c' ⟨far, close⟩
  refine ⟨⟨⟨far.rest, far.tags, far.disk, rfl, rfl⟩, far.near⟩, fun near => ?_⟩
  have used := close near
  exact ⟨⟨used.rest, used.tags, used.disk, rfl, rfl⟩, used.near⟩

/-- With the bitmap near, freeing any number of blocks pushes no buffer back. -/
theorem bfreeAll_near {l : List ℕ} (super : s.sb = sb) (rest : Rest V me k H s.cache)
    (near : Near sb.bmapstart k s.cache) (room : k + H.length < NBUF)
    (apart : ∀ j ∈ H, (s.cache.bufs j).blockno ≠ sb.bmapstart) (freeable : Freeable sb V l) :
    Sat (bfreeAll me ROOTDEV l) s E fun _ s' => ShowsFreed (freeAll sb V l) me k H s s' := by
  induction l generalizing s V with
  | nil => exact Sat.pure ⟨rest, fun _ _ => rfl, rfl, rfl, rfl⟩
  | cons b l ih =>
    have tail := freeable.tail
    unfold bfreeAll
    by_cases zero : b = 0
    · refine Sat.bind (Sat.onlyIf (Q := fun _ t => s = t) (fun bad => absurd zero bad) fun _ => rfl) ?_
      rintro _ _ rfl
      rw [if_pos zero] at tail
      rw [freeAll_zero zero]
      exact ih super rest near apart tail
    · rw [if_neg zero] at tail
      rw [freeAll_cons zero]
      refine Sat.bind (Sat.onlyIf (fun _ => bio_bfree_rest super rest room apart
        (freeable.small b List.mem_cons_self) (freeable.marked b List.mem_cons_self zero))
        fun bad => absurd zero bad) ?_
      rintro _ s₁ ⟨-, close⟩
      obtain ⟨first, near₁⟩ := close near
      refine (ih (first.super.trans super) first.rest near₁ ?_ tail).mono fun _ s₂ last =>
        last.after first.tags first.disk first.super first.inodes
      intro j member
      rw [first.tags j member]
      exact apart j member

/-- Freeing any number of blocks pushes the other buffers back by one place at most. -/
theorem bfreeAll_rest {l : List ℕ} (super : s.sb = sb) (rest : Rest V me k H s.cache)
    (room : k + 1 + H.length < NBUF) (apart : ∀ j ∈ H, (s.cache.bufs j).blockno ≠ sb.bmapstart)
    (freeable : Freeable sb V l) :
    Sat (bfreeAll me ROOTDEV l) s E fun _ s' => ShowsFreed (freeAll sb V l) me (k + 1) H s s' := by
  induction l with
  | nil => exact Sat.pure ⟨rest.mono (Nat.le_succ k), fun _ _ => rfl, rfl, rfl, rfl⟩
  | cons b l ih =>
    have tail := freeable.tail
    unfold bfreeAll
    by_cases zero : b = 0
    · refine Sat.bind (Sat.onlyIf (Q := fun _ t => s = t) (fun bad => absurd zero bad) fun _ => rfl) ?_
      rintro _ _ rfl
      rw [if_pos zero] at tail
      rw [freeAll_zero zero]
      exact ih tail
    · rw [if_neg zero] at tail
      rw [freeAll_cons zero]
      refine Sat.bind (Sat.onlyIf (fun _ => bio_bfree_rest super rest (by omega) apart
        (freeable.small b List.mem_cons_self) (freeable.marked b List.mem_cons_self zero))
        fun bad => absurd zero bad) ?_
      rintro _ s₁ ⟨⟨first, near₁⟩, -⟩
      refine (bfreeAll_near (first.super.trans super) first.rest near₁ (by omega) ?_ tail).mono
        fun _ s₂ last => last.after first.tags first.disk first.super first.inodes
      intro j member
      rw [first.tags j member]
      exact apart j member

/-- The blocks of the first part of a list leave those of the second as they are. -/
theorem Freeable.split {l l' : List ℕ} (freeable : Freeable sb V (l ++ l')) :
    Freeable sb V l ∧ Freeable sb (freeAll sb V l) l' := by
  obtain ⟨first, last, between⟩ := List.pairwise_append.mp freeable.apart
  have small : ∀ b ∈ l, b < BPB := fun b member => freeable.small b (List.mem_append_left _ member)
  refine ⟨⟨small, fun b member => freeable.marked b (List.mem_append_left _ member), first⟩,
    ⟨fun b member => freeable.small b (List.mem_append_right _ member), fun b member nonzero => ?_, last⟩⟩
  rw [bit_freeAll small]
  refine ⟨freeable.marked b (List.mem_append_right _ member) nonzero, fun freed => ?_⟩
  exact between b freed.2 b member nonzero rfl

/-- The inode after it lost its blocks. -/
def Dinode.cleared (d : Dinode) : Dinode :=
  { d with addrs := fun k => if k ≤ NDIRECT then 0 else d.addrs k, size := 0 }

/-- The numbers that `itrunc` frees, in its order. -/
def truncated (V : ℕ → Block) (d : Dinode) : List ℕ :=
  (List.range NDIRECT).map d.addrs ++
    if d.addrs NDIRECT = 0 then []
    else (List.range NDIRECT).map (fun k => u32 (V (d.addrs NDIRECT)) (4 * k)) ++ [d.addrs NDIRECT]

private theorem cut (d : Dinode) :
    Function.update (fun k => if k < NDIRECT then 0 else d.addrs k) NDIRECT 0 =
      fun k => if k ≤ NDIRECT then 0 else d.addrs k := by
  funext k
  by_cases self : k = NDIRECT
  · subst self
    simp
  · rw [Function.update_of_ne self]
    have order : k < NDIRECT ↔ k ≤ NDIRECT := by omega
    simp only [order]

private theorem uncut {d : Dinode} (none : d.addrs NDIRECT = 0) :
    (fun k => if k < NDIRECT then 0 else d.addrs k) = fun k => if k ≤ NDIRECT then 0 else d.addrs k := by
  funext k
  by_cases self : k = NDIRECT
  · subst self
    simp [none]
  · have order : k < NDIRECT ↔ k ≤ NDIRECT := by omega
    simp only [order]

theorem itrunc_spec (rest : Rest V me k [] s.cache) (room : k + 5 < NBUF)
    (dev : (s.inodes i).dev = ROOTDEV) (freeable : Freeable s.sb V (truncated V (s.inodes i).din))
    (apart : (s.inodes i).din.addrs NDIRECT ≠ 0 → (s.inodes i).din.addrs NDIRECT ≠ s.sb.bmapstart)
    {blk : ℕ} (block : IBLOCK (s.inodes i).inum s.sb = blk) {W : ℕ → Block}
    (after : freeAll s.sb V (truncated V (s.inodes i).din) = W) :
    Sat (itrunc me i) s E fun _ s' =>
      Rest (Function.update W blk ((s.inodes i).din.cleared.write ((s.inodes i).inum % IPB) (W blk))) me
        (k + 5) [] s'.cache ∧
      s'.cache.disk = Function.update s.cache.disk blk
        ((s.inodes i).din.cleared.write ((s.inodes i).inum % IPB) (W blk)) ∧
      s'.sb = s.sb ∧ s'.inodes = s.withDin i (s.inodes i).din.cleared := by
  subst block after
  unfold itrunc
  refine Sat.bind getInode_sat ?_
  rintro _ _ ⟨rfl, rfl⟩
  rw [dev]
  obtain ⟨directs, others⟩ := freeable.split
  refine Sat.bind (bfreeAll_rest rfl rest (by simpa using by omega) (by simp) directs) ?_
  rintro _ s₁ freed₁
  unfold setDinode
  refine Sat.bind (Sat.update (Q := fun _ t => t.cache = s₁.cache ∧ t.sb = s.sb ∧ t.inodes = s.withDin i
    { (s.inodes i).din with addrs := fun k => if k < NDIRECT then 0 else (s.inodes i).din.addrs k })
    ⟨rfl, freed₁.super, by simp [Fs.setInode, Fs.withDin, freed₁.inodes]⟩) ?_
  rintro _ s₂ ⟨cache₂, sb₂, inodes₂⟩
  have rest₂ : Rest (freeAll s.sb V ((List.range NDIRECT).map (s.inodes i).din.addrs)) me (k + 1) [] s₂.cache :=
    cache₂ ▸ freed₁.rest
  have disk₂ : s₂.cache.disk = s.cache.disk := by rw [cache₂, freed₁.disk]
  -- the blocks that the indirect block names, and the indirect block itself
  refine Sat.bind (Q := fun _ t => Rest (freeAll s.sb V (truncated V (s.inodes i).din)) me (k + 4) []
    t.cache ∧ t.cache.disk = s.cache.disk ∧ t.sb = s.sb ∧ t.inodes = s.withDin i { (s.inodes i).din with
      addrs := fun k => if k ≤ NDIRECT then 0 else (s.inodes i).din.addrs k })
    (Sat.onlyIf (fun present => ?_) fun none => ?_) ?_
  · have list : truncated V (s.inodes i).din = (List.range NDIRECT).map (s.inodes i).din.addrs ++
        ((List.range NDIRECT).map (fun k => u32 (V ((s.inodes i).din.addrs NDIRECT)) (4 * k)) ++
          [(s.inodes i).din.addrs NDIRECT]) := by rw [truncated, if_neg present]
    rw [if_neg present] at others
    obtain ⟨entries, pointer⟩ := others.split
    refine Sat.bind (bio_bread_rest rest₂ (by simpa using by omega) (by simp)) ?_
    rintro b s₃ ⟨-, rest₃, tag₃, data₃, -, -, disk₃, sb₃, inodes₃⟩
    rw [freeAll_of_ne directs.small (apart present)] at data₃
    refine Sat.bind bio_bufData ?_
    rintro _ _ ⟨rfl, rfl⟩
    rw [data₃]
    refine Sat.bind (bfreeAll_rest (sb₃.trans sb₂) rest₃ (by simpa using by omega)
      (by simpa [tag₃] using apart present) entries) ?_
    rintro _ s₄ freed₄
    refine Sat.bind (bio_brelease_rest freed₄.rest (by simp)) ?_
    rintro _ s₅ ⟨rest₅, -, disk₅, sb₅, inodes₅⟩
    have super₅ : s₅.sb = s.sb := sb₅.trans (freed₄.super.trans (sb₃.trans sb₂))
    refine Sat.bind (bfreeAll_rest super₅ rest₅ (by simpa using by omega) (by simp) pointer) ?_
    rintro _ s₆ freed₆
    have inodes₆ : s₆.inodes = s₂.inodes :=
      freed₆.inodes.trans (inodes₅.trans (freed₄.inodes.trans inodes₃))
    refine Sat.update ⟨?_, ?_, freed₆.super.trans super₅, ?_⟩
    · rw [list, freeAll_append, freeAll_append]
      exact freed₆.rest
    · exact freed₆.disk.trans (disk₅.trans (freed₄.disk.trans (disk₃.trans disk₂)))
    · simp only [Fs.setInode, inodes₆, inodes₂, Fs.withDin, Function.update_self, Function.update_idem]
      rw [cut]
  · have list : truncated V (s.inodes i).din = (List.range NDIRECT).map (s.inodes i).din.addrs := by
      rw [truncated, if_pos (not_not.mp none), List.append_nil]
    refine ⟨?_, disk₂, sb₂, ?_⟩
    · rw [list]
      exact rest₂.mono (by omega)
    · rw [inodes₂, uncut (not_not.mp none)]
  · rintro _ s₇ ⟨rest₇, disk₇, sb₇, inodes₇⟩
    refine Sat.bind (Sat.update (Q := fun _ t => t.cache = s₇.cache ∧ t.sb = s.sb ∧
      t.inodes = s.withDin i (s.inodes i).din.cleared) ⟨rfl, sb₇, ?_⟩) ?_
    · simp [Fs.setInode, inodes₇, Fs.withDin, Dinode.cleared]
    rintro _ s₈ ⟨cache₈, sb₈, inodes₈⟩
    have here : s₈.inodes i = { s.inodes i with din := (s.inodes i).din.cleared } := by
      rw [inodes₈, Fs.withDin, Function.update_self]
    have updated := iupdate_rest (E := E) (cache₈ ▸ rest₇) (by omega) (show (s₈.inodes i).dev = ROOTDEV by rw [here]; exact dev)
      (show IBLOCK (s₈.inodes i).inum s₈.sb = IBLOCK (s.inodes i).inum s.sb by rw [here, sb₈])
    rw [here, inodes₈, sb₈] at updated
    refine updated.mono ?_
    rintro _ s₉ ⟨rest₉, disk₉, sb₉, inodes₉⟩
    rw [cache₈, disk₇] at disk₉
    exact ⟨rest₉, disk₉, sb₉, inodes₉⟩

section Exact

variable {T : ℕ → Dinode} {inum : ℕ}

/-- The places whose blocks `itrunc` frees. -/
def truncPlaces (d : Dinode) (inum : ℕ) : List Place :=
  (List.range NDIRECT).map (.direct inum) ++
    if d.addrs NDIRECT = 0 then [] else (List.range NDIRECT).map (.entry inum) ++ [.indirect inum]

theorem truncated_eq (T : ℕ → Dinode) (V : ℕ → Block) (inum : ℕ) :
    truncated V (T inum) = (truncPlaces (T inum) inum).map (stored T V) := by
  unfold truncated truncPlaces
  by_cases none : (T inum).addrs NDIRECT = 0
  · simp only [none, ↓reduceIte, List.append_nil, List.map_map]
    rfl
  · simp only [none, ↓reduceIte, List.map_append, List.map_map, List.map_cons, List.map_nil]
    congr 2
    refine List.map_congr_left fun k _ => ?_
    exact (if_neg none).symm

theorem mem_truncPlaces {d : Dinode} {π : Place} : π ∈ truncPlaces d inum ↔
    π.owner = inum ∧ match π with
      | .direct _ k => k < NDIRECT
      | .indirect _ => d.addrs NDIRECT ≠ 0
      | .entry _ j => j < NDIRECT ∧ d.addrs NDIRECT ≠ 0 := by
  unfold truncPlaces
  by_cases none : d.addrs NDIRECT = 0
  · cases π <;> simp [none, Place.owner, eq_comm, and_comm]
  · cases π <;> simp [none, Place.owner, eq_comm, and_comm]

theorem nodup_truncPlaces (d : Dinode) (inum : ℕ) : (truncPlaces d inum).Nodup := by
  have directs : ((List.range NDIRECT).map (Place.direct inum)).Nodup :=
    List.Nodup.map (fun a b same => by simpa using same) List.nodup_range
  have entries : ((List.range NDIRECT).map (Place.entry inum)).Nodup :=
    List.Nodup.map (fun a b same => by simpa using same) List.nodup_range
  unfold truncPlaces
  by_cases none : d.addrs NDIRECT = 0
  · simpa [none] using directs
  · rw [if_neg none]
    refine List.Nodup.append directs (List.Nodup.append entries (by simp) (by simp)) ?_
    simp [List.disjoint_left]

theorem valid_of_mem {d : Dinode} {π : Place} (place : π ∈ truncPlaces d inum) :
    π.Valid ∧ π.owner = inum := by
  obtain ⟨owner, facts⟩ := mem_truncPlaces.mp place
  refine ⟨?_, owner⟩
  cases π with
  | direct j k => exact facts
  | indirect j => trivial
  | entry j k => exact lt_trans facts.1 (by decide)

/-- In a sound block map the blocks of an inode can be freed. -/
theorem MapSound.freeable (sound : MapSound sb T V) (one : sb.size ≤ BPB) (inside : inum < sb.ninodes) :
    Freeable sb V (truncated V (T inum)) := by
  have valid : ∀ π ∈ truncPlaces (T inum) inum, π.Valid ∧ π.owner < sb.ninodes := by
    intro π place
    obtain ⟨valid, owner⟩ := valid_of_mem place
    exact ⟨valid, owner ▸ inside⟩
  rw [truncated_eq]
  constructor
  · intro b member
    obtain ⟨π, place, rfl⟩ := List.mem_map.mp member
    by_cases zero : stored T V π = 0
    · rw [zero]
      decide
    · have bound := (sound.marked π (valid π place).1 (valid π place).2 zero).2.1
      omega
  · intro b member nonzero
    obtain ⟨π, place, rfl⟩ := List.mem_map.mp member
    exact (sound.marked π (valid π place).1 (valid π place).2 nonzero).2.2
  · rw [List.pairwise_map]
    refine (nodup_truncPlaces (T inum) inum).pairwise_of_forall_ne fun π place π' place' other nonzero same => ?_
    exact other (sound.once π π' (valid π place).1 (valid π place).2 (valid π' place').1 (valid π' place').2
      nonzero same)

/-- Inode `inum` reaches block `b`. -/
def Owns (T : ℕ → Dinode) (V : ℕ → Block) (inum b : ℕ) : Prop :=
  b ≠ 0 ∧ ∃ π : Place, π.Valid ∧ π.owner = inum ∧ stored T V π = b

/-- The entries of the indirect block that `itrunc` does not look at. -/
def TailEmpty (V : ℕ → Block) (d : Dinode) : Prop :=
  d.addrs NDIRECT = 0 ∨ ∀ j, NDIRECT ≤ j → j < NINDIRECT → u32 (V (d.addrs NDIRECT)) (4 * j) = 0

theorem mem_truncated {b : ℕ} : b ∈ truncated V (T inum) ↔
    ∃ π ∈ truncPlaces (T inum) inum, stored T V π = b := by
  rw [truncated_eq, List.mem_map]

/-- `itrunc` frees no block but those the inode owns. -/
theorem owns_of_truncated {b : ℕ} (nonzero : b ≠ 0) (listed : b ∈ truncated V (T inum)) :
    Owns T V inum b := by
  obtain ⟨π, place, same⟩ := mem_truncated.mp listed
  exact ⟨nonzero, π, (valid_of_mem place).1, (valid_of_mem place).2, same⟩

/-- It frees all of them exactly when the rest of the indirect block is empty. -/
theorem MapSound.truncated_iff (sound : MapSound sb T V) (inside : inum < sb.ninodes) :
    (∀ b, Owns T V inum b → b ∈ truncated V (T inum)) ↔ TailEmpty V (T inum) := by
  constructor
  · intro all
    by_cases none : (T inum).addrs NDIRECT = 0
    · exact .inl none
    refine .inr fun j low high => ?_
    by_contra nonzero
    have here : stored T V (.entry inum j) = u32 (V ((T inum).addrs NDIRECT)) (4 * j) := if_neg none
    -- the block of this entry is owned, but no other place has it
    obtain ⟨π, place, same⟩ := mem_truncated.mp (all _ ⟨nonzero, .entry inum j, high, rfl, here⟩)
    obtain ⟨valid, owner⟩ := valid_of_mem place
    have equal := sound.once π (.entry inum j) valid (owner ▸ inside) high inside (same ▸ nonzero)
      (same.trans here.symm)
    subst equal
    have first := (mem_truncPlaces.mp place).2.1
    omega
  · rintro tail b ⟨nonzero, π, valid, owner, same⟩
    refine mem_truncated.mpr ⟨π, mem_truncPlaces.mpr ⟨owner, ?_⟩, same⟩
    cases π with
    | direct j k => exact valid
    | indirect j =>
      obtain rfl : j = inum := owner
      exact fun zero => nonzero (same.symm.trans zero)
    | entry j k =>
      obtain rfl : j = inum := owner
      rw [stored_entry] at same
      have pointer : (T j).addrs NDIRECT ≠ 0 := by
        intro zero
        rw [if_pos zero] at same
        exact nonzero same.symm
      refine ⟨?_, pointer⟩
      by_contra beyond
      rcases tail with none | empty
      · exact pointer none
      · rw [if_neg pointer, empty k (by omega) valid] at same
        exact nonzero same.symm

/-- `itrunc` is right: it clears the bits of the blocks the inode owned and no others, and the
inode has no blocks and size 0, in memory and on the disk. -/
structure Truncates (s : Fs) (i : Fin INODES) (s' : Fs) : Prop where
  bits : ∀ b < s.sb.size, bitOf s.sb s'.cache b = true ↔
    bitOf s.sb s.cache b = true ∧ ¬ Owns s.table s.shown (s.inodes i).inum b
  memory : (s'.inodes i).din.size = 0 ∧ ∀ k ≤ NDIRECT, (s'.inodes i).din.addrs k = 0
  disk : (Dinode.read (s'.cache.disk (IBLOCK (s.inodes i).inum s.sb)) ((s.inodes i).inum % IPB)).size = 0 ∧
    ∀ k ≤ NDIRECT, (Dinode.read (s'.cache.disk (IBLOCK (s.inodes i).inum s.sb))
      ((s.inodes i).inum % IPB)).addrs k = 0

theorem Dinode.read_cleared (d : Dinode) (slot : ℕ) (data : Block) :
    (Dinode.read (d.cleared.write slot data) slot).size = 0 ∧
      ∀ k ≤ NDIRECT, (Dinode.read (d.cleared.write slot data) slot).addrs k = 0 := by
  have bytes : ∀ k < 64, d.cleared.write slot data (64 * slot + k) = d.cleared.byte k :=
    fun k small => Dinode.write_at _ _ _ small
  refine ⟨(Dinode.read_size bytes).trans rfl, fun k le => (Dinode.read_addrs bytes le).trans ?_⟩
  simp [Dinode.cleared, le]

theorem bitOf_eq {b : ℕ} (small : b < BPB) (s : Fs) :
    bitOf sb s.cache b = bitSet (s.shown sb.bmapstart) b := by
  unfold bitOf
  rw [BBLOCK_small small, Nat.mod_eq_of_lt small]
  rfl

/-- What `itrunc` does to a consistent state: it never panics. -/
theorem itrunc_right (me : ℕ) (quiet : s.Quiet) (consistent : s.Consistent) (loaded : s.Loaded i)
    (inside : (s.inodes i).inum < s.sb.ninodes) :
    Sat (itrunc me i) s (fun _ => False) fun _ s' =>
      Truncates s i s' ↔ TailEmpty s.shown (s.inodes i).din := by
  have here := Fs.table_loaded consistent.slots loaded inside
  have freeable := consistent.sound.freeable consistent.one inside
  have exactly := consistent.sound.truncated_iff inside
  have owned : ∀ b, b ≠ 0 → b ∈ truncated s.shown (s.table (s.inodes i).inum) → _ :=
    fun b nonzero listed => owns_of_truncated nonzero listed
  rw [here] at freeable exactly owned
  refine (itrunc_spec (quiet.rest me) (by decide) loaded.2.1 freeable (fun present => ?_) rfl rfl).mono ?_
  · rw [← here] at present ⊢
    exact (consistent.sound.indirect_above inside present).ne'
  rintro _ s' ⟨rest, disk, super, inodes⟩
  have din : (s'.inodes i).din = (s.inodes i).din.cleared := by
    rw [inodes, Fs.withDin, Function.update_self]
  have area := consistent.area _ inside
  have one := consistent.one
  have bits : ∀ b < s.sb.size, bitOf s.sb s'.cache b = true ↔ bitOf s.sb s.cache b = true ∧
      ¬ (b ≠ 0 ∧ b ∈ truncated s.shown (s.inodes i).din) := by
    intro b small
    rw [bitOf_eq (by omega), bitOf_eq (by omega), ← bit_freeAll freeable.small]
    have shown : s'.shown = _ := rest.shown
    rw [shown, Function.update_of_ne (by omega)]
  constructor
  · intro right
    rw [← exactly]
    intro b owns
    have parts := owns
    obtain ⟨nonzero, π, valid, owner, same⟩ := parts
    obtain ⟨-, small, marked⟩ := consistent.sound.marked π valid (owner ▸ inside) (same ▸ nonzero)
    rw [same] at small marked
    by_contra missing
    have set : bitOf s.sb s.cache b = true := by rwa [bitOf_eq (by omega)]
    have kept := (bits b small).mpr ⟨set, fun listed => missing listed.2⟩
    exact ((right.bits b small).mp kept).2 owns
  · intro tail
    refine ⟨fun b small => ?_, ?_, ?_⟩
    · rw [bits b small]
      refine and_congr_right fun _ => not_congr ⟨fun listed => owned b listed.1 listed.2, fun owns => ?_⟩
      exact ⟨owns.1, exactly.mpr tail b owns⟩
    · rw [din]
      exact ⟨rfl, fun k le => if_pos le⟩
    · rw [disk, Function.update_self]
      exact Dinode.read_cleared _ _ _

end Exact

section Large

/-- The bitmap has blocks 0 to 5 marked, and entry 12 of block 4 is 5. -/
def largeDisk : ℕ → Block :=
  Function.update (Function.update (fun _ _ => 0) 3 (Function.update (fun _ => 0) 0 0x3f)) 4
    (Function.update (fun _ => 0) 48 5)

/-- A file whose indirect block is block 4. -/
def largeFile : Dinode where
  size := 25 * BSIZE
  addrs := Function.update (fun _ => 0) NDIRECT 4

theorem largeFile_stored (π : Place) (valid : π.Valid)
    (present : stored (smallFs largeDisk largeFile).table (smallFs largeDisk largeFile).shown π ≠ 0) :
    (π = .indirect 1 ∧ stored (smallFs largeDisk largeFile).table (smallFs largeDisk largeFile).shown π = 4) ∨
      (π = .entry 1 12 ∧
        stored (smallFs largeDisk largeFile).table (smallFs largeDisk largeFile).shown π = 5) := by
  have empty : largeDisk 2 = fun _ => 0 := rfl
  have table := smallFs_table (d := largeFile) empty
  rw [smallFs_shown] at present ⊢
  cases π with
  | direct j k =>
    have apart : k ≠ NDIRECT := by
      have small : k < NDIRECT := valid
      omega
    refine absurd ((table j k).trans ?_) present
    simp [largeFile, apart]
  | indirect j =>
    have value : stored (smallFs largeDisk largeFile).table largeDisk (.indirect j) = if j = 1 then 4 else 0 := by
      refine (table j NDIRECT).trans ?_
      simp [largeFile]
    rw [value] at present ⊢
    by_cases self : j = 1
    · subst self
      exact .inl ⟨rfl, rfl⟩
    · rw [if_neg self] at present
      exact absurd rfl present
  | entry j k =>
    rw [stored_entry, table] at present ⊢
    by_cases self : j = 1
    · subst self
      have pointer : largeFile.addrs NDIRECT = 4 := by simp [largeFile]
      have data : largeDisk 4 = Function.update (fun _ => 0) 48 5 := by simp [largeDisk]
      simp only [↓reduceIte, pointer, data, OfNat.ofNat_ne_zero] at present ⊢
      by_cases twelve : k = 12
      · subst twelve
        exact .inr ⟨rfl, by decide⟩
      · refine absurd ?_ present
        have bytes : ∀ o < 4, Function.update (fun _ => (0 : Byte)) 48 5 (4 * k + o) = 0 := by
          intro o small
          rw [Function.update_of_ne (by omega)]
        exact u32_of_bytes (x := 0) fun o small => by rw [bytes o small]; simp [leByte]
    · simp [self] at present

theorem largeFile_consistent : (smallFs largeDisk largeFile).Consistent := by
  refine smallFs_consistent ⟨?_, fun π valid _ present => ?_, fun π π' valid _ valid' _ present same => ?_⟩
  · rw [smallFs_shown]
    decide
  · rcases largeFile_stored π valid present with ⟨-, value⟩ | ⟨-, value⟩
    · rw [value, smallFs_shown]
      decide
    · rw [value, smallFs_shown]
      decide
  · have present' := same ▸ present
    rcases largeFile_stored π valid present with ⟨rfl, value⟩ | ⟨rfl, value⟩
    · rcases largeFile_stored π' valid' present' with ⟨rfl, -⟩ | ⟨-, value'⟩
      · rfl
      · rw [value, value'] at same
        cases same
    · rcases largeFile_stored π' valid' present' with ⟨-, value'⟩ | ⟨rfl, -⟩
      · rw [value, value'] at same
        cases same
      · rfl

end Large

end HaloOS
