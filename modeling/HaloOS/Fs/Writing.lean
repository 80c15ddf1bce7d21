import HaloOS.Fs.Bmap
import HaloOS.Fs.WriteThrough

/-! `writei` compares a byte offset with the number of blocks of the largest file. What it
accepts lies in the first block, where it does what it should; it refuses the rest. -/

namespace HaloOS

open Lib Mkfs

variable {V : ℕ → Block} {s s' : Fs} {me k off : ℕ} {i : Fin INODES} {src : List Byte}

/-- The bytes of the block with the source stored from `off` on. -/
def patch (src : List Byte) (off : ℕ) (data : Block) : Block := fun o =>
  if off ≤ o ∧ o < off + src.length then src.getD (o - off) 0 else data o

section Loop

/-- What the loop of `writei` leaves in memory: the inode `d` and the contents `W`. -/
def Patched (sb : Superblock) (V : ℕ → Block) (din : Dinode) (src : List Byte) (off : ℕ) (d : Dinode)
    (W : ℕ → Block) : Prop :=
  (src = [] ∧ d = din ∧ W = V) ∨
    ∃ b U, src ≠ [] ∧ mapBlock sb V din 0 = some (b, d, U) ∧ W = Function.update U b (patch src off (U b))

theorem writeiLoop_done {E : Stop → Prop} (fuel : ℕ) {tot : ℕ} (full : src.length ≤ tot) :
    Sat (writeiLoop me i src fuel tot off) s E fun r t => r = (tot, off) ∧ s = t := by
  cases fuel with
  | zero => exact Sat.pure ⟨rfl, rfl⟩
  | succ fuel =>
    unfold writeiLoop
    rw [if_pos full]
    exact Sat.pure ⟨rfl, rfl⟩

/-- One round stores all bytes, since they lie in the first block. -/
theorem writeiLoop_first (rest : Rest V me k [] s.cache) (room : k + 3 < NBUF) (one : s.sb.size ≤ BPB)
    (dev : (s.inodes i).dev = ROOTDEV) (bitmap : bitSet (V s.sb.bmapstart) s.sb.bmapstart = true)
    (apart : (s.inodes i).din.addrs NDIRECT ≠ 0 →
      (s.inodes i).din.addrs NDIRECT ≠ s.sb.bmapstart)
    (some : src ≠ []) (first : off + src.length ≤ MAXFILE) :
    Sat (writeiLoop me i src src.length 0 off) s
      (fun e => e = .panic "balloc panic...\n" ∧ mapBlock s.sb V (s.inodes i).din 0 = none)
      fun r s' => r = (src.length, off + src.length) ∧ ∃ d W,
        Patched s.sb V (s.inodes i).din src off d W ∧ Rest W me (k + 4) [] s'.cache ∧ s'.sb = s.sb ∧
        s'.inodes = s.withDin i d := by
  have positive : 0 < src.length := List.length_pos_iff.mpr some
  obtain ⟨fuel, count⟩ : ∃ fuel, src.length = fuel + 1 := ⟨src.length - 1, by omega⟩
  simp only [MAXFILE, NDIRECT, NINDIRECT] at first
  have zero : off / BSIZE = 0 := Nat.div_eq_of_lt (by simp only [BSIZE]; omega)
  have inside : off % BSIZE = off := Nat.mod_eq_of_lt (by simp only [BSIZE]; omega)
  have whole : min (src.length - 0) (BSIZE - off) = src.length := by
    simp only [BSIZE]
    omega
  rw [count]
  unfold writeiLoop
  rw [if_neg (by omega), zero, inside, whole, ← count]
  refine Sat.bind (bmap_spec rest (by omega) one dev (by decide) bitmap apart) ?_
  rintro b s₁ ⟨d, W, done, rest₁, -, sb₁, inodes₁⟩
  refine Sat.bind getInode_sat ?_
  rintro _ _ ⟨rfl, rfl⟩
  have dev₁ : (s₁.inodes i).dev = ROOTDEV := by
    rw [inodes₁, Fs.withDin, Function.update_self]
    exact dev
  rw [dev₁]
  refine Sat.bind (bio_bread_rest rest₁ (by simpa using by omega) (by simp)) ?_
  rintro bp s₂ ⟨-, rest₂, tag₂, data₂, -, -, -, sb₂, inodes₂⟩
  refine Sat.bind bio_bufData ?_
  rintro _ _ ⟨rfl, rfl⟩
  dsimp only
  rw [data₂]
  have stored : (fun o => if off ≤ o ∧ o < off + src.length then src.getD (0 + (o - off)) 0 else W b o) =
      patch src off (W b) := by
    funext o
    rw [Nat.zero_add]
    rfl
  rw [stored]
  refine Sat.bind (bio_setData_rest rest₂ _) ?_
  rintro _ s₃ ⟨rest₃, tag₃, -, -, sb₃, inodes₃⟩
  rw [tag₂] at rest₃
  refine Sat.bind (bio_bwrite_rest rest₃) ?_
  rintro _ s₄ ⟨rest₄, -, sb₄, inodes₄⟩
  refine Sat.bind (bio_brelease_rest rest₄ (by simp)) ?_
  rintro _ s₅ ⟨rest₅, -, -, sb₅, inodes₅⟩
  rw [Nat.zero_add]
  refine (writeiLoop_done fuel (le_refl _)).mono ?_
  rintro _ _ ⟨rfl, rfl⟩
  exact ⟨rfl, d, _, .inr ⟨b, W, some, done, rfl⟩, rest₅, sb₅.trans (sb₄.trans (sb₃.trans (sb₂.trans sb₁))),
    inodes₅.trans (inodes₄.trans (inodes₃.trans (inodes₂.trans inodes₁)))⟩

/-- The loop of `writei`, for what `writei` accepts. -/
theorem writeiLoop_spec (rest : Rest V me k [] s.cache) (room : k + 3 < NBUF) (one : s.sb.size ≤ BPB)
    (dev : (s.inodes i).dev = ROOTDEV) (bitmap : bitSet (V s.sb.bmapstart) s.sb.bmapstart = true)
    (apart : (s.inodes i).din.addrs NDIRECT ≠ 0 →
      (s.inodes i).din.addrs NDIRECT ≠ s.sb.bmapstart) (first : off + src.length ≤ MAXFILE) :
    Sat (writeiLoop me i src src.length 0 off) s
      (fun _ => src ≠ [] ∧ mapBlock s.sb V (s.inodes i).din 0 = none)
      fun r s' => r = (src.length, off + src.length) ∧ ∃ d W,
        Patched s.sb V (s.inodes i).din src off d W ∧ Rest W me (k + 4) [] s'.cache ∧ s'.sb = s.sb ∧
        s'.inodes = s.withDin i d := by
  by_cases none : src = []
  · subst none
    refine (writeiLoop_done 0 (le_refl _)).mono ?_
    rintro _ _ ⟨rfl, rfl⟩
    exact ⟨rfl, _, _, .inl ⟨rfl, rfl, rfl⟩, rest.mono (by omega), rfl, (s.withDin_self i).symm⟩
  · exact (writeiLoop_first rest room one dev bitmap apart none first).weaken
      fun _ reason => ⟨none, reason.2⟩

/-- The inode with the size that covers the bytes written. -/
def Dinode.grown (d : Dinode) (stop : ℕ) : Dinode := { d with size := max d.size stop }

/-- What `writei` does when it accepts its arguments. -/
theorem writei_spec (rest : Rest V me k [] s.cache) (room : k + 4 < NBUF) (one : s.sb.size ≤ BPB)
    (dev : (s.inodes i).dev = ROOTDEV) (bitmap : bitSet (V s.sb.bmapstart) s.sb.bmapstart = true)
    (apart : (s.inodes i).din.addrs NDIRECT ≠ 0 →
      (s.inodes i).din.addrs NDIRECT ≠ s.sb.bmapstart)
    (accepts : Accepts s i src.length off) {blk : ℕ} (block : IBLOCK (s.inodes i).inum s.sb = blk) :
    Sat (writei me i src off) s (fun _ => src ≠ [] ∧ mapBlock s.sb V (s.inodes i).din 0 = none)
      fun r s' => r = src.length ∧ ∃ d W, Patched s.sb V (s.inodes i).din src off d W ∧
        Rest (Function.update W blk ((d.grown (off + src.length)).write ((s.inodes i).inum % IPB) (W blk))) me
          (k + 5) [] s'.cache ∧
        s'.cache.disk blk = (d.grown (off + src.length)).write ((s.inodes i).inum % IPB) (W blk) ∧
        s'.sb = s.sb ∧ s'.inodes = s.withDin i (d.grown (off + src.length)) := by
  obtain ⟨low, noWrap, high⟩ := accepts
  unfold writei
  refine Sat.bind getInode_sat ?_
  rintro _ _ ⟨rfl, rfl⟩
  rw [if_neg (by omega), if_neg (by omega)]
  refine Sat.bind (writeiLoop_spec rest (by omega) one dev bitmap apart high) ?_
  rintro _ s₁ ⟨rfl, d, W, patched, rest₁, sb₁, inodes₁⟩
  dsimp only
  have size : d.size = (s.inodes i).din.size := by
    rcases patched with ⟨-, rfl, -⟩ | ⟨b, U, -, done, -⟩
    · rfl
    · exact mapBlock_size done
  -- the size in memory
  refine Sat.bind (Q := fun _ t => t.cache = s₁.cache ∧ t.sb = s.sb ∧
    t.inodes = s.withDin i (d.grown (off + src.length)))
    (Sat.onlyIf (fun larger => Sat.update ⟨rfl, sb₁, ?_⟩) fun covered => ⟨rfl, sb₁, ?_⟩) ?_
  · simp only [Fs.setInode, inodes₁, Fs.withDin, Function.update_self, Function.update_idem, Dinode.grown]
    rw [size, max_eq_right (le_of_lt larger)]
  · rw [inodes₁, Dinode.grown, max_eq_left (by omega)]
  rintro _ s₂ ⟨cache₂, sb₂, inodes₂⟩
  have here : s₂.inodes i = { s.inodes i with din := d.grown (off + src.length) } := by
    rw [inodes₂, Fs.withDin, Function.update_self]
  have updated := iupdate_rest (E := fun _ => src ≠ [] ∧ mapBlock s.sb V (s.inodes i).din 0 = none)
    (cache₂ ▸ rest₁) (by omega) (show (s₂.inodes i).dev = ROOTDEV by rw [here]; exact dev)
    (show IBLOCK (s₂.inodes i).inum s₂.sb = blk by rw [here, sb₂]; exact block)
  rw [here, inodes₂, sb₂] at updated
  refine Sat.bind updated ?_
  rintro _ s₃ ⟨rest₃, disk₃, sb₃, inodes₃⟩
  exact Sat.pure ⟨rfl, d, W, patched, rest₃, by rw [disk₃, Function.update_self], sb₃, inodes₃⟩

end Loop

section Bytes

variable {T T₁ T' : ℕ → Dinode} {U V' : ℕ → Block} {sb : Superblock} {inum j m p : ℕ}

/-- Byte `p` of a file, if its block is there. -/
def byteAt (T : ℕ → Dinode) (V : ℕ → Block) (inum p : ℕ) : Option Byte :=
  if mapped V (T inum) (p / BSIZE) = 0 then none
  else some (V (mapped V (T inum) (p / BSIZE)) (p % BSIZE))

/-- An index depends on the block addresses and the indirect block. -/
theorem mapped_agree {d d' : Dinode} (addrs : ∀ k ≤ NDIRECT, d'.addrs k = d.addrs k)
    (block : d.addrs NDIRECT ≠ 0 → V' (d.addrs NDIRECT) = V (d.addrs NDIRECT)) (m : ℕ) :
    mapped V' d' m = mapped V d m := by
  unfold mapped
  by_cases direct : m < NDIRECT
  · rw [if_pos direct, if_pos direct, addrs m (le_of_lt direct)]
  · rw [if_neg direct, if_neg direct, addrs NDIRECT (le_refl _)]
    by_cases none : d.addrs NDIRECT = 0
    · rw [if_pos none, if_pos none]
    · rw [if_neg none, if_neg none, block none]

/-- The block of an index is a data block. -/
theorem MapSound.mapped_above (sound : MapSound sb T V) (inside : j < sb.ninodes) (small : m < MAXFILE)
    (present : mapped V (T j) m ≠ 0) : sb.bmapstart < mapped V (T j) m := by
  rw [mapped_eq_stored] at present ⊢
  exact (sound.marked _ (place_valid small) (by rwa [owner_place]) present).1

/-- Storing the inode changes nothing that the block map refers to. -/
theorem byteAt_iupdate (sound : MapSound sb T₁ U) (inside : j < sb.ninodes) (small : p / BSIZE < MAXFILE)
    (addrs : ∀ k ≤ NDIRECT, (T' j).addrs k = (T₁ j).addrs k)
    (above : ∀ b, sb.bmapstart < b → V' b = U b) : byteAt T' V' j p = byteAt T₁ U j p := by
  have map : mapped V' (T' j) (p / BSIZE) = mapped U (T₁ j) (p / BSIZE) :=
    mapped_agree addrs (fun present => above _ (sound.indirect_above inside present)) _
  unfold byteAt
  rw [map]
  by_cases none : mapped U (T₁ j) (p / BSIZE) = 0
  · rw [if_pos none, if_pos none]
  · rw [if_neg none, if_neg none, above _ (sound.mapped_above inside small none)]

/-- Storing into the block of index 0 of inode `inum` changes the bytes of that block only. -/
theorem byteAt_patch {b : ℕ} {data : Block} (right : MapsRight sb T V inum 0 b T₁ U)
    (inside : j < sb.ninodes) (small : p / BSIZE < MAXFILE) :
    byteAt T₁ (Function.update U b data) j p =
      if j = inum ∧ p / BSIZE = 0 then some (data (p % BSIZE)) else byteAt T₁ U j p := by
  have pointer : (T₁ j).addrs NDIRECT ≠ b := by
    intro same
    have only := right.only (.indirect j) trivial inside same
    exact place_ne_indirect only.symm
  have map : mapped (Function.update U b data) (T₁ j) (p / BSIZE) = mapped U (T₁ j) (p / BSIZE) :=
    mapped_agree (fun _ _ => rfl) (fun _ => Function.update_of_ne pointer _ _) _
  unfold byteAt
  rw [map]
  by_cases self : j = inum ∧ p / BSIZE = 0
  · obtain ⟨rfl, zero⟩ := self
    rw [zero, right.here, if_neg right.some, Function.update_self, if_pos ⟨rfl, rfl⟩]
  · rw [if_neg self]
    by_cases none : mapped U (T₁ j) (p / BSIZE) = 0
    · rw [if_pos none, if_pos none]
    · have apart : mapped U (T₁ j) (p / BSIZE) ≠ b := by
        intro same
        rw [mapped_eq_stored] at same
        have only := right.only _ (place_valid small) (by rwa [owner_place]) same
        exact self (place_inj only)
      rw [if_neg none, if_neg none, Function.update_of_ne apart]

/-- Mapping index 0 changes no byte that was there. -/
theorem byteAt_map {b : ℕ} (sound : MapSound sb T V) (right : MapsRight sb T V inum 0 b T₁ U)
    (inside : j < sb.ninodes) (small : p / BSIZE < MAXFILE) (other : ¬ (j = inum ∧ p / BSIZE = 0))
    (above : ∀ c, sb.bmapstart < c → U c = V c) : byteAt T₁ U j p = byteAt T V j p := by
  have map := right.others j inside (p / BSIZE) small fun same => other (by simpa using same)
  unfold byteAt
  rw [map]
  by_cases none : mapped V (T j) (p / BSIZE) = 0
  · rw [if_pos none, if_pos none]
  · rw [if_neg none, if_neg none, above _ (sound.mapped_above inside small none)]

/-- The block of an index can be overwritten without harm to the block map. -/
theorem MapsRight.patch {b : ℕ} (right : MapsRight sb T V inum 0 b T₁ U) (data : Block)
    (above : sb.bmapstart < b) : MapSound sb T₁ (Function.update U b data) := by
  have same : ∀ π : Place, π.owner < sb.ninodes → stored T₁ (Function.update U b data) π = stored T₁ U π := by
    intro π owner
    cases π with
    | direct j k => rfl
    | indirect j => rfl
    | entry j k =>
      have pointer : (T₁ j).addrs NDIRECT ≠ b := by
        intro equal
        exact place_ne_indirect (right.only (.indirect j) trivial owner equal).symm
      rw [stored_entry, stored_entry, Function.update_of_ne pointer]
  have bitmap : Function.update U b data sb.bmapstart = U sb.bmapstart :=
    Function.update_of_ne (by omega) _ _
  refine ⟨?_, ?_, ?_⟩
  · rw [bitmap]
    exact right.sound.metadata
  · intro π valid owner
    rw [bitmap, same π owner]
    exact right.sound.marked π valid owner
  · intro π π' valid owner valid' owner'
    rw [same π owner, same π' owner']
    exact right.sound.once π π' valid owner valid' owner'

end Bytes

section Right

variable {r : ℤ}

/-- `writei` stored its source: the bytes of the range are those of the source, the other bytes of
the file that were there and all bytes of other files are as before, and the size covers both. -/
structure WritesRight (s : Fs) (i : Fin INODES) (src : List Byte) (off : ℕ) (r : ℤ) (s' : Fs) : Prop where
  result : r = src.length
  bytes : ∀ j (inside : j < src.length),
    byteAt s'.table s'.shown (s.inodes i).inum (off + j) = some src[j]
  kept : ∀ p < (s.inodes i).din.size, ¬ (off ≤ p ∧ p < off + src.length) →
    ∀ x, byteAt s.table s.shown (s.inodes i).inum p = some x →
      byteAt s'.table s'.shown (s.inodes i).inum p = some x
  size : (s'.inodes i).din.size = max (s.inodes i).din.size (off + src.length)
  disk : (Dinode.read (s'.cache.disk (IBLOCK (s.inodes i).inum s.sb)) ((s.inodes i).inum % IPB)).size =
    max (s.inodes i).din.size (off + src.length)
  others : ∀ inum < s.sb.ninodes, inum ≠ (s.inodes i).inum → ∀ p < MAXFILE * BSIZE,
    byteAt s'.table s'.shown inum p = byteAt s.table s.shown inum p

/-- The arguments that `writei` is to accept. -/
def Writable (s : Fs) (i : Fin INODES) (len off : ℕ) : Prop :=
  off ≤ (s.inodes i).din.size ∧ off + len < UINT ∧ off + len ≤ MAXFILE * BSIZE

/-- `writei` is right: it stores what it is to accept, and otherwise returns -1 and changes nothing. -/
def WriteiRight (s : Fs) (i : Fin INODES) (src : List Byte) (off : ℕ) (r : ℤ) (s' : Fs) : Prop :=
  (Writable s i src.length off → WritesRight s i src off r s') ∧
    (¬ Writable s i src.length off → r = -1 ∧ s' = s)

/-- The addresses of every inode after the inode was stored. -/
theorem table_addrs {d : Dinode} {W : ℕ → Block} {data : Block} {slot : ℕ} (consistent : s.Consistent)
    (loaded : s.Loaded i) (inside : (s.inodes i).inum < s.sb.ninodes) (super : s'.sb = s.sb)
    (inodes : s'.inodes = s.withDin i d) (slots : (s.inodes i).inum % IPB = slot)
    (data_eq : d.write slot (W (IBLOCK (s.inodes i).inum s.sb)) = data)
    (shown : s'.shown = Function.update W (IBLOCK (s.inodes i).inum s.sb) data)
    (below : ∀ b < s.sb.bmapstart, W b = s.shown b) (j k : ℕ) (le : k ≤ NDIRECT) :
    (s'.table j).addrs k = (Function.update s.table (s.inodes i).inum d j).addrs k := by
  obtain ⟨self, others⟩ := Fs.table_withDin consistent.slots loaded inside super inodes
  by_cases same : j = (s.inodes i).inum
  · rw [same, self, Function.update_self]
  · rw [Function.update_of_ne same]
    rcases others j same with equal | ⟨before, after, small⟩
    · rw [equal]
    · rw [before, after, shown]
      by_cases block : IBLOCK j s.sb = IBLOCK (s.inodes i).inum s.sb
      · have apart : j % IPB ≠ slot := by
          rw [← slots]
          intro equal
          refine same ?_
          simp only [IBLOCK, IPB] at block equal
          omega
        rw [block, Function.update_self, ← data_eq, Dinode.read_write_addrs apart le,
          below _ (block ▸ consistent.area j small)]
      · rw [Function.update_of_ne block, below _ (consistent.area j small)]

/-- What is known of the state after `writei` stored its source. -/
structure Stored (s : Fs) (i : Fin INODES) (d : Dinode) (W : ℕ → Block) (s' : Fs) : Prop where
  shown : s'.shown = Function.update W (IBLOCK (s.inodes i).inum s.sb)
    (d.write ((s.inodes i).inum % IPB) (W (IBLOCK (s.inodes i).inum s.sb)))
  disk : s'.cache.disk (IBLOCK (s.inodes i).inum s.sb) =
    d.write ((s.inodes i).inum % IPB) (W (IBLOCK (s.inodes i).inum s.sb))
  super : s'.sb = s.sb
  inodes : s'.inodes = s.withDin i d

/-- The bytes of every file are those of the contents before the inode was stored. -/
theorem Stored.bytes_eq {d : Dinode} {W : ℕ → Block} (stored : Stored s i d W s') (consistent : s.Consistent)
    (loaded : s.Loaded i) (inside : (s.inodes i).inum < s.sb.ninodes)
    (below : ∀ b < s.sb.bmapstart, W b = s.shown b) {T₁ : ℕ → Dinode} (sound : MapSound s.sb T₁ W)
    (addrs : ∀ j, ∀ k ≤ NDIRECT, (Function.update s.table (s.inodes i).inum d j).addrs k = (T₁ j).addrs k)
    {j p : ℕ} (owner : j < s.sb.ninodes) (small : p / BSIZE < MAXFILE) :
    byteAt s'.table s'.shown j p = byteAt T₁ W j p := by
  refine byteAt_iupdate sound owner small (fun k le => ?_) fun b above => ?_
  · rw [table_addrs consistent loaded inside stored.super stored.inodes rfl rfl stored.shown below j k le]
    exact addrs j k le
  · have area := consistent.area _ inside
    rw [stored.shown, Function.update_of_ne (by omega)]

theorem Dinode.read_grown (d : Dinode) (slot : ℕ) (data : Block) {stop : ℕ} (small : d.size < UINT)
    (fits : stop < UINT) :
    (Dinode.read ((d.grown stop).write slot data) slot).size = max d.size stop := by
  refine (Dinode.read_size fun k inside => Dinode.write_at _ _ _ inside).trans ?_
  exact Nat.mod_eq_of_lt (max_lt small fits)

/-- The part of `WritesRight` that does not depend on the bytes. -/
theorem Stored.writesRight {d : Dinode} {W : ℕ → Block} (stored : Stored s i (d.grown (off + src.length)) W s')
    (size : d.size = (s.inodes i).din.size) (bounded : (s.inodes i).din.size ≤ MAXFILE * BSIZE)
    (first : off + src.length ≤ MAXFILE)
    (bytes : ∀ j (inside : j < src.length),
      byteAt s'.table s'.shown (s.inodes i).inum (off + j) = some src[j])
    (kept : ∀ p < (s.inodes i).din.size, ¬ (off ≤ p ∧ p < off + src.length) →
      ∀ x, byteAt s.table s.shown (s.inodes i).inum p = some x →
        byteAt s'.table s'.shown (s.inodes i).inum p = some x)
    (others : ∀ inum < s.sb.ninodes, inum ≠ (s.inodes i).inum → ∀ p < MAXFILE * BSIZE,
      byteAt s'.table s'.shown inum p = byteAt s.table s.shown inum p) :
    WritesRight s i src off src.length s' where
  result := rfl
  bytes := bytes
  kept := kept
  size := by
    rw [stored.inodes, Fs.withDin, Function.update_self, ← size]
    rfl
  disk := by
    have limit : MAXFILE * BSIZE < UINT := by decide
    have below : MAXFILE ≤ MAXFILE * BSIZE := by decide
    rw [stored.disk, Dinode.read_grown d _ _ (by omega) (by omega), size]
  others := others

theorem div_lt_MAXFILE {p : ℕ} (small : p < MAXFILE * BSIZE) : p / BSIZE < MAXFILE :=
  Nat.div_lt_of_lt_mul (Nat.mul_comm MAXFILE BSIZE ▸ small)

/-- What `writei` accepts it stores. -/
theorem writei_stores (me : ℕ) (quiet : s.Quiet) (consistent : s.Consistent) (loaded : s.Loaded i)
    (inside : (s.inodes i).inum < s.sb.ninodes) (bounded : (s.inodes i).din.size ≤ MAXFILE * BSIZE)
    (accepts : Accepts s i src.length off)
    (enough : src ≠ [] → mapBlock s.sb s.shown (s.inodes i).din 0 ≠ none) :
    Sat (writei me i src off) s (fun _ => False) fun r s' => WritesRight s i src off r s' := by
  have here := Fs.table_loaded consistent.slots loaded inside
  have sound := consistent.sound
  have low : MAXFILE ≤ MAXFILE * BSIZE := by decide
  refine ((writei_spec (quiet.rest me) (by decide) consistent.one loaded.2.1
    (sound.metadata _ (le_refl _)) (fun present => ?_) accepts rfl).weaken
    fun _ reason => enough reason.1 reason.2).mono ?_
  · rw [← here] at present ⊢
    exact (sound.indirect_above inside present).ne'
  rintro r s' ⟨rfl, d, W, patched, rest, disk, super, inodes⟩
  have stored : Stored s i (d.grown (off + src.length)) W s' := ⟨rest.shown, disk, super, inodes⟩
  have first := accepts.2.2
  rcases patched with ⟨rfl, rfl, rfl⟩ | ⟨b, U, -, done, rfl⟩
  · have same : ∀ {j p : ℕ}, j < s.sb.ninodes → p / BSIZE < MAXFILE →
        byteAt s'.table s'.shown j p = byteAt s.table s.shown j p := by
      intro j p owner small
      refine stored.bytes_eq consistent loaded inside (fun _ _ => rfl) sound (fun j k le => ?_) owner small
      by_cases self : j = (s.inodes i).inum
      · subst self
        rw [Function.update_self, here]
        rfl
      · rw [Function.update_of_ne self]
    refine stored.writesRight rfl bounded first (fun j absent => absurd absent (Nat.not_lt_zero j)) ?_ ?_
    · intro p small _ x byte
      rw [same inside (div_lt_MAXFILE (by omega))]
      exact byte
    · intro inum owner _ p small
      exact same owner (div_lt_MAXFILE small)
  · have size := mapBlock_size done
    rw [← here] at done
    have right : MapsRight s.sb s.table s.shown (s.inodes i).inum 0 b
        (Function.update s.table (s.inodes i).inum d) U :=
      (mapBlock_right_iff sound inside (by decide) done).mpr (.inl (by decide))
    have data : s.sb.bmapstart < b := by
      have present := right.sound.mapped_above inside (m := 0) (by decide) (by rw [right.here]; exact right.some)
      rwa [right.here] at present
    have area : ∀ c < s.sb.bmapstart, Function.update U b (patch src off (U b)) c = s.shown c := by
      intro c small
      rw [Function.update_of_ne (by omega), mapBlock_below sound inside done small]
    have addrs : ∀ j, ∀ k ≤ NDIRECT,
        (Function.update s.table (s.inodes i).inum (d.grown (off + src.length)) j).addrs k =
          (Function.update s.table (s.inodes i).inum d j).addrs k := by
      intro j k _
      by_cases self : j = (s.inodes i).inum
      · subst self
        rw [Function.update_self, Function.update_self]
        rfl
      · rw [Function.update_of_ne self, Function.update_of_ne self]
    have after : ∀ {j p : ℕ}, j < s.sb.ninodes → p / BSIZE < MAXFILE → byteAt s'.table s'.shown j p =
        if j = (s.inodes i).inum ∧ p / BSIZE = 0 then some (patch src off (U b) (p % BSIZE))
        else byteAt s.table s.shown j p := by
      intro j p owner small
      rw [stored.bytes_eq consistent loaded inside area (right.patch _ data) addrs owner small,
        byteAt_patch right owner small]
      by_cases self : j = (s.inodes i).inum ∧ p / BSIZE = 0
      · rw [if_pos self, if_pos self]
      · rw [if_neg self, if_neg self]
        exact byteAt_map sound right owner small self fun c above => mapBlock_direct (by decide) done (by omega)
    have block : MAXFILE < BSIZE := by decide
    refine stored.writesRight size bounded first (fun j below => ?_) ?_ ?_
    · have zero : (off + j) / BSIZE = 0 := Nat.div_eq_of_lt (by omega)
      have place : (off + j) % BSIZE = off + j := Nat.mod_eq_of_lt (by omega)
      rw [after inside (by rw [zero]; decide), if_pos ⟨rfl, zero⟩, place, patch, if_pos (by omega),
        Nat.add_sub_cancel_left, List.getD_eq_getElem _ _ below]
    · intro p small outside x byte
      rw [after inside (div_lt_MAXFILE (by omega))]
      by_cases zero : p / BSIZE = 0
      · have place : p % BSIZE = p := Nat.mod_eq_of_lt (Nat.lt_of_div_eq_zero (by decide) zero)
        unfold byteAt at byte
        rw [zero, place] at byte
        by_cases none : mapped s.shown (s.table (s.inodes i).inum) 0 = 0
        · rw [if_pos none] at byte
          cases byte
        · -- the block was there, so it is the one that `bmap` found
          have direct : mapped s.shown (s.table (s.inodes i).inum) 0 =
              (s.table (s.inodes i).inum).addrs 0 := if_pos (by decide)
          obtain ⟨rfl, -, rfl⟩ : (s.table (s.inodes i).inum).addrs 0 = b ∧
              s.table (s.inodes i).inum = d ∧ s.shown = U := by
            rw [direct] at none
            simpa [mapBlock, none, NDIRECT] using done
          rw [if_neg none, direct] at byte
          rw [if_pos ⟨rfl, zero⟩, place, patch, if_neg outside]
          exact byte
      · rw [if_neg fun both => zero both.2]
        exact byte
    · intro inum owner other p small
      rw [after owner (div_lt_MAXFILE small), if_neg fun both => other both.1]

/-- What `writei` does not accept it refuses without a trace. -/
theorem writei_refuses (me : ℕ) (refused : ¬ Accepts s i src.length off) :
    writei me i src off s = .ok (-1, s) := by
  unfold writei
  rw [bind_run, getInode, gets_run]
  dsimp only
  by_cases outside : (s.inodes i).din.size < off ∨ (off + src.length) % UINT < off
  · rw [if_pos outside]
    rfl
  · have beyond : MAXFILE < off + src.length := by
      by_contra small
      exact refused ⟨by omega, by omega, by omega⟩
    rw [if_neg outside, if_pos beyond]
    rfl

theorem accepts_iff {len : ℕ} :
    Accepts s i len off ↔ Writable s i len off ∧ off + len ≤ MAXFILE := by
  have limit : MAXFILE ≤ MAXFILE * BSIZE := by decide
  have small : MAXFILE < UINT := by decide
  unfold Accepts Writable
  generalize UINT = u at *
  generalize MAXFILE * BSIZE = bound at *
  constructor
  · rintro ⟨low, noWrap, high⟩
    exact ⟨⟨low, by omega, by omega⟩, high⟩
  · rintro ⟨⟨low, fits, -⟩, high⟩
    exact ⟨low, by rw [Nat.mod_eq_of_lt fits]; omega, high⟩

end Right

end HaloOS
